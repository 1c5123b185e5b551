import FlipperZero.Cli.Basic
import FlipperZero.Irda.Protocols

/-! # Leaving the infrared application

The task of the application shares its queues, its mutex, its decoder and its stack with the capture
interrupt and with two commands of the command line. On its way out it releases them one by one; the
commands are deleted after what they use, and the interrupt is disabled near the end.
-/

namespace FlipperZero.Irda

open Lib Cli

inductive IrdaResource where
  | eventQueue
  | cliQueue
  | stateMutex
  | decoder
  /-- The stack of the task, with `irda_app`, `state_mutex` and `isr_context`. -/
  | stack
deriving DecidableEq, Repr

inductive IrdaOp where
  | create (resource : IrdaResource)
  | delete (resource : IrdaResource)
  | addRx
  | addTx
  | deleteRx
  | deleteTx
  | rxIrqInit
  | rxIrqSetCallback
  | rxIrqDeinit
  | acquire
  | release
  | loop
  /-- What shares nothing with the interrupt and the commands. -/
  | other
deriving DecidableEq, Repr

def irdaEnter : List IrdaOp :=
  [.create .eventQueue, .create .cliQueue, .other, .create .stateMutex, .other, .addRx, .addTx,
    .other, .create .decoder, .rxIrqInit, .rxIrqSetCallback, .loop]

def irdaExit : List IrdaOp :=
  [.other, .acquire, .delete .stateMutex, .delete .eventQueue, .delete .cliQueue, .deleteRx,
    .deleteTx, .other, .rxIrqDeinit, .delete .decoder, .delete .stack]

def irdaEvent (back : Bool) : List IrdaOp :=
  .acquire :: .release :: if back then irdaExit else [.loop]

def txProtocol (name : List Char) : Option IrdaProtocol :=
  if name = ['N', 'E', 'C'] then some .nec
  else if name = ['S', 'A', 'M', 'S', 'U', 'N', 'G'] then some .samsung32
  else none

/-- The protocol, the address and the command of `irda_cli_cmd_tx`, if it gets to the mutex. -/
def irdaCliCmdTx (args : List Char) : Option (IrdaProtocol × List Char × List Char) :=
  match args.findIdx? (· = ' ') with
  | none => none
  | some ws =>
    (txProtocol (args.take ws)).bind fun protocol =>
      let address := stringStrim (args.drop ws)
      match address.findIdx? (· = ' ') with
      | none => none
      | some ws =>
        let command := stringStrim (address.drop ws)
        if (ws = 4 ∨ ws = 6) ∧ (command.length = 4 ∨ command.length = 6) then
          some (protocol, address.take ws, command)
        else none

/-- Where the CLI thread is in a command, with the launch whose context it was given. -/
inductive CommandPc where
  | idle
  | rx (launch : ℕ)
  | rxInterrupt (launch : ℕ)
  | rxGet (launch : ℕ) (exit : Bool)
  | rxWait (launch : ℕ) (exit : Bool)
  | rxExit (launch : ℕ)
  | tx (launch : ℕ)
  | txWait (launch : ℕ)
  | txSend (launch : ℕ)
deriving DecidableEq, Repr

namespace CommandPc

def uses : CommandPc → List (IrdaResource × ℕ)
  | idle => []
  | rx n | rxInterrupt n | rxExit n => [(.stack, n)]
  | rxGet n _ => [(.stack, n), (.cliQueue, n)]
  | rxWait n _ => [(.cliQueue, n)]
  | tx n | txWait n | txSend n => [(.stack, n), (.stateMutex, n)]

def needs : CommandPc → List (IrdaResource × ℕ)
  | idle => []
  | rx n | rxInterrupt n | rxGet n _ | rxWait n _ => [(.stack, n), (.cliQueue, n)]
  | rxExit n => [(.stack, n)]
  | tx n | txWait n | txSend n => [(.stack, n), (.stateMutex, n)]

theorem mem_needs_of_mem_uses {pc : CommandPc} {resource : IrdaResource × ℕ}
    (h : resource ∈ pc.uses) : resource ∈ pc.needs := by
  cases pc <;> simp_all [uses, needs]

end CommandPc

inductive Holder where
  | task
  | cli
deriving DecidableEq, Repr

structure IrdaSystem where
  /-- How often the application was launched. -/
  launch : ℕ
  /-- What is left of the task; nothing if it does not run. -/
  ops : List IrdaOp
  /-- The resources of the last launch that are not released. -/
  alive : List IrdaResource
  /-- Who holds the state mutex. -/
  mutex : Option Holder
  /-- The contexts that the commands are registered with. -/
  rx : Option ℕ
  tx : Option ℕ
  /-- The interrupt is enabled. -/
  enabled : Bool
  callback : Option ℕ
  cli : CommandPc
  /-- The uses of what was released. -/
  misused : List (IrdaResource × ℕ)
deriving DecidableEq, Repr

namespace IrdaSystem

variable (s : IrdaSystem)

def Alive (resource : IrdaResource × ℕ) : Prop := resource.2 = s.launch ∧ resource.1 ∈ s.alive

instance (resource : IrdaResource × ℕ) : Decidable (s.Alive resource) :=
  inferInstanceAs (Decidable (_ ∧ _))

def use (resources : List (IrdaResource × ℕ)) : IrdaSystem :=
  { s with misused := s.misused ++ resources.filter fun resource => ¬s.Alive resource }

/-- The contexts of `irda_rx_callback`. -/
def captureUses (message : Bool) : Option ℕ → List (IrdaResource × ℕ)
  | none => []
  | some n => (.stack, n) :: (.decoder, n) :: if message then [(.eventQueue, n)] else []

def runOp (back : Bool) (op : IrdaOp) (ops : List IrdaOp) : Option IrdaSystem :=
  match op with
  | .create resource => some { s with ops := ops, alive := resource :: s.alive }
  | .delete .stateMutex =>
    some { s with ops := ops, alive := s.alive.filter (· ≠ .stateMutex), mutex := none }
  | .delete resource => some { s with ops := ops, alive := s.alive.filter (· ≠ resource) }
  | .addRx => some { s with ops := ops, rx := some s.launch }
  | .addTx => some { s with ops := ops, tx := some s.launch }
  | .deleteRx => some { s with ops := ops, rx := none }
  | .deleteTx => some { s with ops := ops, tx := none }
  | .rxIrqInit => some { s with ops := ops, enabled := true }
  | .rxIrqSetCallback => some { s with ops := ops, callback := some s.launch }
  | .rxIrqDeinit => some { s with ops := ops, enabled := false }
  | .acquire => if s.mutex = none then some { s with ops := ops, mutex := some .task } else none
  | .release => some { s with ops := ops, mutex := none }
  | .loop => some { s with ops := irdaEvent back }
  | .other => some { s with ops := ops }

/-- The next step of the command; the flag is that an interrupt was received, or that the wait for
the mutex ends without it. -/
def command (flag : Bool) : CommandPc → Option IrdaSystem
  | .idle => none
  | .rx n => some { s with cli := .rxInterrupt n }
  | .rxInterrupt n => some { s with cli := .rxGet n flag }
  | .rxGet n exit => some { s with cli := .rxWait n exit }
  | .rxWait n exit => some { s with cli := if exit then .rxExit n else .rxInterrupt n }
  | .rxExit _ => some { s with cli := .idle }
  | .tx n =>
    if s.mutex = none then some { s with cli := .txSend n, mutex := some .cli }
    else some { s with cli := .txWait n }
  | .txWait n =>
    if s.mutex = none then some { s with cli := .txSend n, mutex := some .cli }
    else if flag then some { s with cli := .idle }
    else none
  | .txSend _ => some { s with cli := .idle, mutex := none }

inductive Label where
  | launch
  | task (back : Bool)
  | capture (message : Bool)
  | enterRx
  | enterTx (args : List Char)
  | cli (flag : Bool)
deriving DecidableEq, Repr

def next : Label → Option IrdaSystem
  | .launch =>
    if s.ops = [] then
      some { s with launch := s.launch + 1, ops := irdaEnter, alive := [.stack] }
    else none
  | .task back =>
    match s.ops with
    | [] => none
    | op :: ops => s.runOp back op ops
  | .capture message => if s.enabled then some (s.use (captureUses message s.callback)) else none
  | .enterRx =>
    if s.cli = .idle then
      match s.rx with
      | some n => some { s with cli := .rx n }
      | none => some s
    else none
  | .enterTx args =>
    if s.cli = .idle then
      match s.tx with
      | some n => if (irdaCliCmdTx args).isSome then some { s with cli := .tx n } else some s
      | none => some s
    else none
  | .cli flag => (s.use s.cli.uses).command flag s.cli

def machine : Machine IrdaSystem Label where
  init :=
    { launch := 0
      ops := []
      alive := []
      mutex := none
      rx := none
      tx := none
      enabled := false
      callback := none
      cli := .idle
      misused := [] }
  next := next

def released : List IrdaOp → Option IrdaResource
  | .delete resource :: _ => some resource
  | _ => none

/-- A message is completed only while there is the event queue, by the callback of this launch; a
command is entered only while there is what it uses; and the task releases nothing that a command
goes on to use. -/
def Keeps : Label → Prop
  | .capture message =>
    s.callback = none ∨ s.callback = some s.launch ∧ (message → .eventQueue ∈ s.alive)
  | .enterRx => s.rx.isSome → .cliQueue ∈ s.alive
  | .enterTx args => s.tx.isSome ∧ (irdaCliCmdTx args).isSome → .stateMutex ∈ s.alive
  | .task _ => ∀ resource ∈ released s.ops, (resource, s.launch) ∉ s.cli.needs
  | .launch | .cli _ => True

instance : ∀ l, Decidable (s.Keeps l)
  | .capture _ => inferInstanceAs (Decidable (_ ∨ _ ∧ (_ → _)))
  | .enterRx => inferInstanceAs (Decidable (_ → _))
  | .enterTx _ => inferInstanceAs (Decidable (_ ∧ _ → _))
  | .task _ => inferInstanceAs (Decidable (∀ resource ∈ released s.ops, _))
  | .launch | .cli _ => inferInstanceAs (Decidable True)

/-- What the task has done so far, as far as the interrupt and the commands can see it. -/
structure Progress where
  alive : List IrdaResource
  /-- The task holds the state mutex. -/
  held : Bool
  rx : Bool
  tx : Bool
  enabled : Bool
deriving DecidableEq, Repr

def progress : Progress where
  alive := s.alive
  held := s.mutex = some .task
  rx := s.rx.isSome
  tx := s.tx.isSome
  enabled := s.enabled

namespace Progress

variable (p : Progress)

def run : IrdaOp → Progress
  | .create resource => { p with alive := resource :: p.alive }
  | .delete .stateMutex => { p with alive := p.alive.filter (· ≠ .stateMutex), held := false }
  | .delete resource => { p with alive := p.alive.filter (· ≠ resource) }
  | .addRx => { p with rx := true }
  | .addTx => { p with tx := true }
  | .deleteRx => { p with rx := false }
  | .deleteTx => { p with tx := false }
  | .rxIrqInit => { p with enabled := true }
  | .rxIrqDeinit => { p with enabled := false }
  | .acquire => { p with held := true }
  | .release => { p with held := false }
  | .rxIrqSetCallback | .loop | .other => p

/-- The commands have their stack, and the interrupt has its decoder as well. -/
structure Ordered : Prop where
  rx : p.rx → .stack ∈ p.alive
  tx : p.tx → .stack ∈ p.alive
  enabled : p.enabled → .stack ∈ p.alive ∧ .decoder ∈ p.alive

instance : Decidable p.Ordered :=
  decidable_of_iff ((p.rx → .stack ∈ p.alive) ∧ (p.tx → .stack ∈ p.alive) ∧
      (p.enabled → .stack ∈ p.alive ∧ .decoder ∈ p.alive))
    ⟨fun h => ⟨h.1, h.2.1, h.2.2⟩, fun h => ⟨h.rx, h.tx, h.enabled⟩⟩

def launched : Progress := ⟨[.stack], false, false, false, false⟩

def running : Progress :=
  ⟨[.decoder, .stateMutex, .cliQueue, .eventQueue, .stack], false, true, true, true⟩

def ended : Progress := ⟨[], false, false, false, false⟩

def follows : Progress → List IrdaOp → Bool
  | p, [] => p = ended
  | p, op :: ops =>
    decide p.Ordered &&
      match op with
      | .loop => decide (p = running) && ops.isEmpty
      | .delete .stateMutex => p.held && follows (p.run (.delete .stateMutex)) ops
      | .release => p.held && follows (p.run .release) ops
      | op => follows (p.run op) ops

theorem follows_enter : launched.follows irdaEnter = true := by decide

theorem follows_event (back : Bool) : running.follows (irdaEvent back) = true := by
  cases back <;> decide

end Progress

def Misuses : Prop := ∃ n s', machine.exec s (List.replicate n (.cli true)) = some s' ∧
  s'.misused ≠ []

structure Sound : Prop where
  safe : s.misused = []
  rx : ∀ n, s.rx = some n → n = s.launch
  tx : ∀ n, s.tx = some n → n = s.launch
  /-- A command has what it goes on to use. -/
  needs : ∀ resource ∈ s.cli.needs, s.Alive resource
  mutex : s.mutex = some .cli ↔ ∃ n, s.cli = .txSend n
  follows : s.progress.follows s.ops = true

variable {s} {s' : IrdaSystem} {l : Label} {op : IrdaOp} {ops : List IrdaOp} {back flag : Bool}

theorem released_eq_some {resource : IrdaResource} (h : released ops = some resource) :
    ∃ rest, ops = .delete resource :: rest := by
  unfold released at h
  split at h
  · next rest => exact ⟨rest, congrArg (· :: _) (congrArg _ (Option.some.inj h))⟩
  · cases h

namespace Progress

theorem follows_cons {p : Progress} (h : p.follows (op :: ops) = true) (hloop : op ≠ .loop) :
    p.Ordered ∧ (p.run op).follows ops = true ∧
      (op = .release ∨ op = .delete .stateMutex → p.held = true) := by
  unfold follows at h
  obtain ⟨hordered, h⟩ := Bool.and_eq_true_iff.mp h
  refine ⟨of_decide_eq_true hordered, ?_⟩
  split at h
  · exact absurd rfl hloop
  · obtain ⟨hheld, h⟩ := Bool.and_eq_true_iff.mp h
    exact ⟨h, fun _ => hheld⟩
  · obtain ⟨hheld, h⟩ := Bool.and_eq_true_iff.mp h
    exact ⟨h, fun _ => hheld⟩
  · next hdelete hrelease => exact ⟨h, fun hop => (hop.elim hrelease hdelete).elim⟩

theorem follows_loop {p : Progress} (h : p.follows (.loop :: ops) = true) :
    p = running ∧ ops = [] := by
  obtain ⟨-, h⟩ := Bool.and_eq_true_iff.mp h
  obtain ⟨hp, hops⟩ := Bool.and_eq_true_iff.mp h
  exact ⟨of_decide_eq_true hp, List.isEmpty_iff.mp hops⟩

theorem ordered_of_follows {p : Progress} (h : p.follows ops = true) : p.Ordered := by
  cases ops with
  | nil =>
    obtain rfl : p = ended := of_decide_eq_true h
    decide
  | cons op ops => exact of_decide_eq_true (Bool.and_eq_true_iff.mp h).1

end Progress

theorem misused_use_eq_nil_iff {resources : List (IrdaResource × ℕ)} :
    (s.use resources).misused = [] ↔
      s.misused = [] ∧ ∀ resource ∈ resources, s.Alive resource := by
  simp only [use, List.append_eq_nil_iff, List.filter_eq_nil_iff, decide_eq_true_eq, not_not]

theorem Sound.of_task (h : s.Sound) (hcli : s'.cli = s.cli) (hlaunch : s'.launch = s.launch)
    (hmisused : s'.misused = s.misused) (hrx : ∀ n, s'.rx = some n → n = s.launch)
    (htx : ∀ n, s'.tx = some n → n = s.launch)
    (halive : ∀ resource ∈ s.cli.needs, resource.1 ∈ s'.alive)
    (hmutex : s'.mutex = some .cli ↔ s.mutex = some .cli)
    (hfollows : s'.progress.follows s'.ops = true) : s'.Sound := by
  constructor
  · rw [hmisused]
    exact h.safe
  · rw [hlaunch]
    exact hrx
  · rw [hlaunch]
    exact htx
  · intro resource hneeds
    rw [hcli] at hneeds
    exact ⟨(h.needs resource hneeds).1.trans hlaunch.symm, halive resource hneeds⟩
  · rw [hmutex, hcli]
    exact h.mutex
  · exact hfollows

theorem Sound.mem_filter {resource : IrdaResource} (h : s.Sound)
    (hneeds : (resource, s.launch) ∉ s.cli.needs) :
    ∀ needed ∈ s.cli.needs, needed.1 ∈ s.alive.filter (· ≠ resource) := by
  rintro ⟨needed, n⟩ hmem
  obtain ⟨hlaunch, halive⟩ := h.needs _ hmem
  obtain rfl : n = s.launch := hlaunch
  apply List.mem_filter.mpr
  refine ⟨halive, decide_eq_true ?_⟩
  rintro rfl
  exact hneeds hmem

theorem Sound.runOp (h : s.Sound) (hops : s.ops = op :: ops) (hkeeps : s.Keeps (.task back))
    (hs : s.runOp back op ops = some s') : s'.Sound := by
  have hfollows : s.progress.follows (op :: ops) = true := hops ▸ h.follows
  have halive : ∀ resource ∈ s.cli.needs, resource.1 ∈ s.alive :=
    fun resource hmem => (h.needs resource hmem).2
  have hcli : s.mutex = some .task → s.mutex ≠ some .cli := by
    rintro htask hmutex
    cases htask ▸ hmutex
  cases op with
  | loop =>
    obtain ⟨hrunning, -⟩ := Progress.follows_loop hfollows
    obtain rfl := Option.some.inj hs
    have hevent : s.progress.follows (irdaEvent back) = true :=
      hrunning ▸ Progress.follows_event back
    exact h.of_task rfl rfl rfl h.rx h.tx halive Iff.rfl hevent
  | create resource =>
    obtain ⟨-, hrest, -⟩ := Progress.follows_cons hfollows (by rintro ⟨⟩)
    obtain rfl := Option.some.inj hs
    have hcons : ∀ needed ∈ s.cli.needs, needed.1 ∈ resource :: s.alive :=
      fun needed hmem => List.mem_cons_of_mem _ (halive needed hmem)
    exact h.of_task rfl rfl rfl h.rx h.tx hcons Iff.rfl hrest
  | delete resource =>
    obtain ⟨-, hrest, hheld⟩ := Progress.follows_cons hfollows (by rintro ⟨⟩)
    have hmem := h.mem_filter (hkeeps resource (by simp [hops, released]))
    cases resource with
    | stateMutex =>
      obtain rfl := Option.some.inj hs
      have hmutex := hcli (of_decide_eq_true (hheld (.inr rfl)))
      exact h.of_task rfl rfl rfl h.rx h.tx hmem (iff_of_false (by rintro ⟨⟩) hmutex) hrest
    | eventQueue | cliQueue | decoder | stack =>
      obtain rfl := Option.some.inj hs
      exact h.of_task rfl rfl rfl h.rx h.tx hmem Iff.rfl hrest
  | addRx =>
    obtain ⟨-, hrest, -⟩ := Progress.follows_cons hfollows (by rintro ⟨⟩)
    obtain rfl := Option.some.inj hs
    have hrx : ∀ n, some s.launch = some n → n = s.launch :=
      fun n hn => (Option.some.inj hn).symm
    exact h.of_task rfl rfl rfl hrx h.tx halive Iff.rfl hrest
  | addTx =>
    obtain ⟨-, hrest, -⟩ := Progress.follows_cons hfollows (by rintro ⟨⟩)
    obtain rfl := Option.some.inj hs
    have htx : ∀ n, some s.launch = some n → n = s.launch :=
      fun n hn => (Option.some.inj hn).symm
    exact h.of_task rfl rfl rfl h.rx htx halive Iff.rfl hrest
  | deleteRx =>
    obtain ⟨-, hrest, -⟩ := Progress.follows_cons hfollows (by rintro ⟨⟩)
    obtain rfl := Option.some.inj hs
    exact h.of_task rfl rfl rfl (by rintro n ⟨⟩) h.tx halive Iff.rfl hrest
  | deleteTx =>
    obtain ⟨-, hrest, -⟩ := Progress.follows_cons hfollows (by rintro ⟨⟩)
    obtain rfl := Option.some.inj hs
    exact h.of_task rfl rfl rfl h.rx (by rintro n ⟨⟩) halive Iff.rfl hrest
  | rxIrqInit | rxIrqSetCallback | rxIrqDeinit | other =>
    obtain ⟨-, hrest, -⟩ := Progress.follows_cons hfollows (by rintro ⟨⟩)
    obtain rfl := Option.some.inj hs
    exact h.of_task rfl rfl rfl h.rx h.tx halive Iff.rfl hrest
  | acquire =>
    obtain ⟨-, hrest, -⟩ := Progress.follows_cons hfollows (by rintro ⟨⟩)
    simp only [IrdaSystem.runOp] at hs
    split at hs
    · next hmutex =>
      obtain rfl := Option.some.inj hs
      exact h.of_task rfl rfl rfl h.rx h.tx halive (by simp [hmutex]) hrest
    · cases hs
  | release =>
    obtain ⟨-, hrest, hheld⟩ := Progress.follows_cons hfollows (by rintro ⟨⟩)
    obtain rfl := Option.some.inj hs
    have hmutex := hcli (of_decide_eq_true (hheld (.inl rfl)))
    exact h.of_task rfl rfl rfl h.rx h.tx halive (iff_of_false (by rintro ⟨⟩) hmutex) hrest

theorem Sound.of_command {pc : CommandPc} {mutex : Option Holder} (h : s.Sound)
    (hneeds : ∀ resource ∈ pc.needs, s.Alive resource)
    (hmutex : mutex = some .cli ↔ ∃ n, pc = .txSend n)
    (hheld : mutex = some .task ↔ s.mutex = some .task) :
    ({ s with cli := pc, mutex := mutex } : IrdaSystem).Sound := by
  constructor
  · exact h.safe
  · exact h.rx
  · exact h.tx
  · exact hneeds
  · exact hmutex
  · have hprogress : ({ s with cli := pc, mutex := mutex } : IrdaSystem).progress = s.progress := by
      simp only [progress, hheld]
    rw [hprogress]
    exact h.follows

theorem Sound.move {pc : CommandPc} (h : s.Sound) (hneeds : ∀ resource ∈ pc.needs, s.Alive resource)
    (hbefore : ∀ n, s.cli ≠ .txSend n) (hafter : ∀ n, pc ≠ .txSend n) :
    ({ s with cli := pc } : IrdaSystem).Sound := by
  have hmutex : s.mutex ≠ some .cli := by
    intro hmutex
    obtain ⟨n, hcli⟩ := h.mutex.mp hmutex
    exact hbefore n hcli
  have hiff : s.mutex = some .cli ↔ ∃ n, pc = .txSend n :=
    iff_of_false hmutex fun ⟨n, hpc⟩ => hafter n hpc
  exact h.of_command hneeds hiff Iff.rfl

theorem Sound.needs_of_subset {pc : CommandPc} (h : s.Sound)
    (hsubset : ∀ resource ∈ pc.needs, resource ∈ s.cli.needs) :
    ∀ resource ∈ pc.needs, s.Alive resource :=
  fun resource hmem => h.needs resource (hsubset resource hmem)

theorem Sound.command (h : s.Sound) (hs : s.command flag s.cli = some s') : s'.Sound := by
  cases hcli : s.cli with
  | idle => cases hcli ▸ hs
  | rx n =>
    rw [hcli] at hs
    obtain rfl := Option.some.inj hs
    exact h.move (h.needs_of_subset (by simp [hcli, CommandPc.needs])) (by simp [hcli]) (by simp)
  | rxInterrupt n =>
    rw [hcli] at hs
    obtain rfl := Option.some.inj hs
    exact h.move (h.needs_of_subset (by simp [hcli, CommandPc.needs])) (by simp [hcli]) (by simp)
  | rxGet n exit =>
    rw [hcli] at hs
    obtain rfl := Option.some.inj hs
    exact h.move (h.needs_of_subset (by simp [hcli, CommandPc.needs])) (by simp [hcli]) (by simp)
  | rxWait n exit =>
    rw [hcli] at hs
    obtain rfl := Option.some.inj hs
    cases exit with
    | false =>
      exact h.move (h.needs_of_subset (by simp [hcli, CommandPc.needs])) (by simp [hcli]) (by simp)
    | true =>
      exact h.move (h.needs_of_subset (by simp [hcli, CommandPc.needs])) (by simp [hcli]) (by simp)
  | rxExit n =>
    rw [hcli] at hs
    obtain rfl := Option.some.inj hs
    exact h.move (h.needs_of_subset (by simp [CommandPc.needs])) (by simp [hcli]) (by simp)
  | tx n =>
    rw [hcli] at hs
    simp only [IrdaSystem.command] at hs
    split at hs
    · next hmutex =>
      obtain rfl := Option.some.inj hs
      have hneeds : ∀ resource ∈ (CommandPc.txSend n).needs, s.Alive resource :=
        h.needs_of_subset (by simp [hcli, CommandPc.needs])
      exact h.of_command hneeds (by simp) (by simp [hmutex])
    · obtain rfl := Option.some.inj hs
      exact h.move (h.needs_of_subset (by simp [hcli, CommandPc.needs])) (by simp [hcli]) (by simp)
  | txWait n =>
    rw [hcli] at hs
    simp only [IrdaSystem.command] at hs
    split at hs
    · next hmutex =>
      obtain rfl := Option.some.inj hs
      have hneeds : ∀ resource ∈ (CommandPc.txSend n).needs, s.Alive resource :=
        h.needs_of_subset (by simp [hcli, CommandPc.needs])
      exact h.of_command hneeds (by simp) (by simp [hmutex])
    · split at hs
      · obtain rfl := Option.some.inj hs
        exact h.move (h.needs_of_subset (by simp [CommandPc.needs])) (by simp [hcli]) (by simp)
      · cases hs
  | txSend n =>
    rw [hcli] at hs
    obtain rfl := Option.some.inj hs
    have hmutex : s.mutex = some .cli := h.mutex.mpr ⟨n, hcli⟩
    exact h.of_command (h.needs_of_subset (by simp [CommandPc.needs])) (by simp) (by simp [hmutex])

theorem Sound.use_eq {resources : List (IrdaResource × ℕ)} (h : s.Sound)
    (hresources : ∀ resource ∈ resources, s.Alive resource) : s.use resources = s := by
  have hmisused := misused_use_eq_nil_iff.mpr ⟨h.safe, hresources⟩
  have hsafe := h.safe
  cases s
  simp only at hsafe
  subst hsafe
  exact congrArg _ hmisused

theorem Sound.captureUses_iff {message : Bool} (h : s.Sound) (henabled : s.enabled = true) :
    (∀ resource ∈ captureUses message s.callback, s.Alive resource) ↔
      s.Keeps (.capture message) := by
  obtain ⟨hstack, hdecoder⟩ := (Progress.ordered_of_follows h.follows).enabled henabled
  have hstack : IrdaResource.stack ∈ s.alive := hstack
  have hdecoder : IrdaResource.decoder ∈ s.alive := hdecoder
  cases hcallback : s.callback with
  | none => simp [captureUses, Keeps, hcallback]
  | some n =>
    cases message <;> simp [captureUses, Keeps, hcallback, Alive, hstack, hdecoder]

theorem Sound.launch (h : s.Sound) (hops : s.ops = []) :
    ({ s with launch := s.launch + 1, ops := irdaEnter, alive := [.stack] } :
      IrdaSystem).Sound := by
  have hended : s.progress = .ended := by
    have hfollows := h.follows
    rw [hops] at hfollows
    exact of_decide_eq_true hfollows
  obtain ⟨halive, hheld, hrx, htx, henabled⟩ := Progress.mk.inj hended
  have hneeds : ∀ resource, resource ∉ s.cli.needs := by
    intro resource hmem
    exact absurd (halive ▸ (h.needs resource hmem).2) List.not_mem_nil
  constructor
  · exact h.safe
  · intro n hn
    rw [hn] at hrx
    cases hrx
  · intro n hn
    rw [hn] at htx
    cases htx
  · exact fun resource hmem => absurd hmem (hneeds resource)
  · exact h.mutex
  · simp only [progress, hheld, hrx, htx, henabled]
    exact Progress.follows_enter

theorem Sound.next (h : s.Sound) (hkeeps : s.Keeps l) (hs : machine.next s l = some s') :
    s'.Sound := by
  have hordered := Progress.ordered_of_follows h.follows
  simp only [machine, IrdaSystem.next] at hs
  cases l with
  | launch =>
    simp only at hs
    split at hs
    · next hops => exact Option.some.inj hs ▸ h.launch hops
    · cases hs
  | task back =>
    simp only at hs
    split at hs
    · cases hs
    · next op ops hops => exact h.runOp hops hkeeps hs
  | capture message =>
    simp only at hs
    split at hs
    · next henabled =>
      obtain rfl := Option.some.inj hs
      rw [h.use_eq ((h.captureUses_iff henabled).mpr hkeeps)]
      exact h
    · cases hs
  | enterRx =>
    simp only at hs
    split at hs
    · next hidle =>
      split at hs
      · next n hrx =>
        obtain rfl := Option.some.inj hs
        obtain rfl := h.rx n hrx
        have hstack : IrdaResource.stack ∈ s.alive := hordered.rx (by simp [progress, hrx])
        have hqueue : IrdaResource.cliQueue ∈ s.alive := hkeeps (by simp [hrx])
        exact h.move (by simp [CommandPc.needs, Alive, hstack, hqueue]) (by simp [hidle]) (by simp)
      · exact Option.some.inj hs ▸ h
    · cases hs
  | enterTx args =>
    simp only at hs
    split at hs
    · next hidle =>
      split at hs
      · next n htx =>
        split at hs
        · next hargs =>
          obtain rfl := Option.some.inj hs
          obtain rfl := h.tx n htx
          have hstack : IrdaResource.stack ∈ s.alive := hordered.tx (by simp [progress, htx])
          have hmutex : IrdaResource.stateMutex ∈ s.alive := hkeeps ⟨by simp [htx], hargs⟩
          exact h.move (by simp [CommandPc.needs, Alive, hstack, hmutex]) (by simp [hidle])
            (by simp)
        · exact Option.some.inj hs ▸ h
      · exact Option.some.inj hs ▸ h
    · cases hs
  | cli flag =>
    rw [h.use_eq fun resource hmem => h.needs resource (CommandPc.mem_needs_of_mem_uses hmem)] at hs
    exact h.command hs

theorem misuses_of_misused (h : s.misused ≠ []) : s.Misuses := ⟨0, s, rfl, h⟩

theorem Misuses.of_next (hs : machine.next s (.cli true) = some s') (h : s'.Misuses) :
    s.Misuses := by
  obtain ⟨n, s'', hexec, hmisused⟩ := h
  refine ⟨n + 1, s'', ?_, hmisused⟩
  rw [List.replicate_succ, Machine.exec_cons hs]
  exact hexec

section Released

variable {resource : IrdaResource × ℕ}

theorem misused_use_ne_nil {resources : List (IrdaResource × ℕ)} (hmem : resource ∈ resources)
    (hdead : ¬s.Alive resource) : (s.use resources).misused ≠ [] :=
  fun hnil => hdead ((misused_use_eq_nil_iff.mp hnil).2 resource hmem)

theorem misused_command {pc : CommandPc} (hpc : pc ≠ .idle) :
    ∃ s', s.command true pc = some s' ∧ s'.misused = s.misused := by
  cases pc with
  | idle => exact absurd rfl hpc
  | tx n =>
    simp only [command]
    split <;> exact ⟨_, rfl, rfl⟩
  | txWait n =>
    simp only [command, if_true]
    split <;> exact ⟨_, rfl, rfl⟩
  | rx | rxInterrupt | rxGet | rxWait | rxExit | txSend => exact ⟨_, rfl, rfl⟩

theorem misuses_of_mem_uses (hmem : resource ∈ s.cli.uses) (hdead : ¬s.Alive resource) :
    s.Misuses := by
  have hidle : s.cli ≠ .idle := by
    intro hidle
    rw [hidle] at hmem
    exact List.not_mem_nil hmem
  obtain ⟨s', hs, hmisused⟩ := @misused_command (s.use s.cli.uses) s.cli hidle
  apply Misuses.of_next hs
  apply misuses_of_misused
  rw [hmisused]
  exact misused_use_ne_nil hmem hdead

theorem misuses_of_rxInterrupt {n : ℕ} (hcli : s.cli = .rxInterrupt n)
    (hmem : resource ∈ (CommandPc.rxInterrupt n).needs) (hdead : ¬s.Alive resource) :
    s.Misuses := by
  have hs : machine.next s (.cli true) = some { s.use s.cli.uses with cli := .rxGet n true } := by
    simp only [machine, IrdaSystem.next, hcli]
    rfl
  exact .of_next hs (misuses_of_mem_uses hmem hdead)

theorem misuses_of_mem_needs (hmem : resource ∈ s.cli.needs) (hdead : ¬s.Alive resource) :
    s.Misuses := by
  cases hcli : s.cli with
  | rx n =>
    have hs : machine.next s (.cli true) = some
        { s.use s.cli.uses with cli := .rxInterrupt n } := by
      simp only [machine, IrdaSystem.next, hcli]
      rfl
    rw [hcli] at hmem
    exact .of_next hs (misuses_of_rxInterrupt rfl hmem hdead)
  | rxInterrupt n =>
    rw [hcli] at hmem
    exact misuses_of_rxInterrupt hcli hmem hdead
  | rxWait n exit =>
    have hs : machine.next s (.cli true) = some
        { s.use s.cli.uses with cli := if exit then .rxExit n else .rxInterrupt n } := by
      simp only [machine, IrdaSystem.next, hcli]
      rfl
    rw [hcli] at hmem
    rcases List.mem_pair.mp hmem with rfl | rfl
    · have hstack : (IrdaResource.stack, n) ∈ [(IrdaResource.stack, n)] := List.mem_cons_self
      cases exit with
      | false => exact .of_next hs (misuses_of_mem_uses hstack hdead)
      | true => exact .of_next hs (misuses_of_mem_uses hstack hdead)
    · apply misuses_of_mem_uses _ hdead
      rw [hcli]
      exact List.mem_singleton.mpr rfl
  | idle | rxGet | rxExit | tx | txWait | txSend =>
    rw [hcli] at hmem
    apply misuses_of_mem_uses _ hdead
    rw [hcli]
    exact hmem

end Released

theorem misuses_of_not_keeps (h : s.Sound) (hkeeps : ¬s.Keeps l)
    (hs : machine.next s l = some s') : s'.Misuses := by
  cases l with
  | launch => exact absurd trivial hkeeps
  | task back =>
    simp only [Keeps] at hkeeps
    push Not at hkeeps
    obtain ⟨resource, hreleased, hneeds⟩ := hkeeps
    obtain ⟨ops, hops⟩ := released_eq_some hreleased
    simp only [machine, IrdaSystem.next, hops] at hs
    have hdead : resource ∉ s.alive.filter (· ≠ resource) := by simp
    cases resource with
    | stateMutex =>
      obtain rfl := Option.some.inj hs
      exact misuses_of_mem_needs hneeds fun halive => hdead halive.2
    | eventQueue | cliQueue | decoder | stack =>
      obtain rfl := Option.some.inj hs
      exact misuses_of_mem_needs hneeds fun halive => hdead halive.2
  | capture message =>
    simp only [machine, IrdaSystem.next] at hs
    split at hs
    · next henabled =>
      obtain rfl := Option.some.inj hs
      apply misuses_of_misused
      intro hsafe
      exact hkeeps ((h.captureUses_iff henabled).mp (misused_use_eq_nil_iff.mp hsafe).2)
    · cases hs
  | enterRx =>
    simp only [Keeps, Classical.not_imp, Option.isSome_iff_exists] at hkeeps
    obtain ⟨⟨n, hrx⟩, hqueue⟩ := hkeeps
    simp only [machine, IrdaSystem.next, hrx] at hs
    split at hs
    · obtain rfl := Option.some.inj hs
      apply misuses_of_mem_needs (.tail _ (.head _))
      exact fun halive => hqueue halive.2
    · cases hs
  | enterTx args =>
    simp only [Keeps, Classical.not_imp, Option.isSome_iff_exists] at hkeeps
    obtain ⟨⟨⟨n, htx⟩, message, hargs⟩, hmutex⟩ := hkeeps
    simp only [machine, IrdaSystem.next, htx, hargs, Option.isSome_some, if_true] at hs
    split at hs
    · obtain rfl := Option.some.inj hs
      apply misuses_of_mem_needs (.tail _ (.head _))
      exact fun halive => hmutex halive.2
    · cases hs
  | cli flag => exact absurd trivial hkeeps

theorem sound_init : machine.init.Sound := by
  constructor
  · rfl
  · rintro n ⟨⟩
  · rintro n ⟨⟩
  · rintro resource ⟨⟩
  · simp [machine]
  · decide

end IrdaSystem

/-- In every run that meets the condition neither the interrupt nor a command uses what is released,
in no launch of the application. After any other step of such a run one of them does, if not at
once then as soon as the command line goes on. -/
theorem irda_exit_resources {s : IrdaSystem}
    (hreach : IrdaSystem.machine.ReachableWith IrdaSystem.Keeps s) :
    s.misused = [] ∧ ∀ l s', IrdaSystem.machine.next s l = some s' → ¬s.Keeps l → s'.Misuses := by
  have hsound : s.Sound := hreach.invariant (P := IrdaSystem.Sound) IrdaSystem.sound_init
    fun _ _ _ h hkeeps hs => h.next hkeeps hs
  exact ⟨hsound.safe, fun l s' hs hkeeps => IrdaSystem.misuses_of_not_keeps hsound hkeeps hs⟩

/-- The queue of the command line is deleted while `ir_rx` waits for a packet. -/
theorem irda_exit_resources_rx : ∃ s s' : IrdaSystem, s.cli = .rxWait 1 false ∧
    IrdaSystem.machine.next s (.task false) = some s' ∧ .cliQueue ∉ s'.alive ∧ s'.Misuses := by
  have hrun : ∃ s s' : IrdaSystem, IrdaSystem.machine.execWith IrdaSystem.Keeps
      IrdaSystem.machine.init
        (IrdaSystem.Label.launch :: List.replicate 11 (IrdaSystem.Label.task false) ++
          [IrdaSystem.Label.enterRx, IrdaSystem.Label.cli false, IrdaSystem.Label.cli false,
            IrdaSystem.Label.cli false] ++
          List.replicate 7 (IrdaSystem.Label.task true)) = some s ∧
      IrdaSystem.machine.next s (.task false) = some s' ∧ s.cli = .rxWait 1 false ∧
      .cliQueue ∉ s'.alive ∧ ¬s.Keeps (.task false) :=
    ⟨_, _, rfl, rfl, rfl, by decide, by decide⟩
  obtain ⟨s, s', hexec, hs, hcli, halive, hkeeps⟩ := hrun
  have hreach := Machine.execWith_reachableWith .init hexec
  exact ⟨s, s', hcli, hs, halive, (irda_exit_resources hreach).2 _ s' hs hkeeps⟩

/-- A message is completed after the event queue is deleted, before the interrupt is disabled. -/
theorem irda_exit_resources_capture :
    ¬∀ s : IrdaSystem, IrdaSystem.machine.Reachable s → s.misused = [] := by
  intro h
  have hrun : ∃ s : IrdaSystem, IrdaSystem.machine.exec IrdaSystem.machine.init
      (IrdaSystem.Label.launch :: List.replicate 11 (IrdaSystem.Label.task false) ++
        List.replicate 7 (IrdaSystem.Label.task true) ++ [IrdaSystem.Label.capture true]) =
        some s ∧ s.misused = [(.eventQueue, 1)] := ⟨_, rfl, by decide⟩
  obtain ⟨s, hs, hmisused⟩ := hrun
  have hsafe := h s (Machine.exec_reachable .init hs)
  cases hmisused ▸ hsafe

end FlipperZero.Irda
