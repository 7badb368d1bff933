import FeedbackQueue.Params

/-!
# Processes

A slot of the table holds one `Process` record for the whole life of the table; a slot that
describes nobody has stage `unused` and pid `nobody`.

## Main definitions

* `Stage` : the stages of the lifecycle.
* `Process` : what a slot records.
* `Place` : the chains of a table; `Process.home` is the one on which a process belongs.
* `clip` : the characters of a text that fit in a number of bytes; names are clipped.
-/

namespace FeedbackQueue

/-- Number of a slot. -/
abbrev Slot := Nat

/-- Number of a process. -/
abbrev Pid := Nat

/-- The pid of a slot that describes nobody. -/
abbrev nobody : Pid := 0

/-- Number of a CPU. -/
abbrev Cpu := Nat

/-- Stage of the lifecycle of a slot. -/
inductive Stage where
  /-- Free. -/
  | unused
  /-- Being built. -/
  | embryo
  /-- Blocked on a channel. -/
  | sleeping
  /-- Waiting for a CPU. -/
  | runnable
  /-- On a CPU. -/
  | running
  /-- Exited and not yet reaped. -/
  | zombie
  deriving DecidableEq, Repr

namespace Stage

/-- The stages in the order of listings. -/
def all : List Stage := [unused, embryo, sleeping, runnable, running, zombie]

/-- Name of a stage. -/
def name : Stage → String
  | unused => "Unused"
  | embryo => "Embryo"
  | sleeping => "Sleeping"
  | runnable => "Runnable"
  | running => "Running"
  | zombie => "Zombie"

/-- Name of a stage in six columns. -/
def label : Stage → String
  | unused => "unused"
  | embryo => "embryo"
  | sleeping => "sleep "
  | runnable => "runble"
  | running => "run   "
  | zombie => "zombie"

end Stage

/-- What a sleeping process waits for. -/
inductive Channel where
  /-- A process; a parent that waits for a child sleeps on itself. -/
  | process (pid : Pid)
  /-- The tick counter. -/
  | ticks
  /-- Anything else, by its address. -/
  | address (a : Nat)
  deriving DecidableEq, Repr

/-- Kernel stack, by its base address. -/
structure KernelStack where
  base : Nat
  deriving DecidableEq, Repr

/-- Address space, by the root of its page table. -/
structure AddressSpace where
  root : Nat
  deriving DecidableEq, Repr

/-- Reference to an open file or directory. -/
structure FileHandle where
  ref : Nat
  deriving DecidableEq, Repr

/-- Permission to run one process on one CPU, from its dispatch until the CPU is taken back. -/
structure Handoff where
  slot : Slot
  pid : Pid
  deriving DecidableEq, Repr

/-! ### Names -/

/-- The longest run of characters at the start of a text that fits in `limit` bytes. -/
def clip (limit : Nat) : List Char → List Char
  | [] => []
  | c :: cs => if c.utf8Size ≤ limit then c :: clip (limit - c.utf8Size) cs else []

theorem clip_prefix (limit : Nat) (cs : List Char) : clip limit cs <+: cs := by
  induction cs generalizing limit with
  | nil => exact List.prefix_rfl
  | cons c cs ih =>
    simp only [clip]
    split
    · exact List.prefix_cons_inj c |>.2 (ih _)
    · exact List.nil_prefix

/-- The part of a name that a process keeps: whole characters, at most `nameLimit` bytes. -/
def clipName (name : String) : String := String.ofList (clip nameLimit name.toList)

example : clip 4 ['a', 'é', 'é', 'b'] = ['a', 'é'] := by decide

/-! ### Records -/

/-- What a slot records about its process. -/
structure Process where
  /-- Number of the process, `nobody` in a free slot. -/
  pid : Pid := nobody
  /-- Stage of the lifecycle. -/
  stage : Stage := .unused
  /-- Ready level. -/
  priority : Nat := 0
  /-- Ticks left at this level. -/
  budget : Int := 0
  /-- Slot of the parent. -/
  parent : Option Slot := none
  /-- Tick of the allocation. -/
  startedAt : Nat := 0
  /-- Ticks spent on a CPU in completed stints. -/
  cpuTicks : Nat := 0
  /-- Tick of the last dispatch. -/
  dispatchedAt : Nat := 0
  /-- What the process sleeps on. -/
  channel : Option Channel := none
  /-- Whether a kill was requested. -/
  killed : Bool := false
  /-- Owner. -/
  uid : Nat := 0
  /-- Group. -/
  gid : Nat := 0
  /-- Name, at most `nameLimit` bytes. -/
  name : String := ""
  /-- Bytes of the address space. -/
  size : Nat := 0
  /-- Saved result of a system call. -/
  callResult : Int := 0
  /-- Kernel stack. -/
  stack : Option KernelStack := none
  /-- Address space. -/
  space : Option AddressSpace := none
  /-- Open files. -/
  files : List FileHandle := []
  /-- Working directory. -/
  cwd : Option FileHandle := none
  deriving DecidableEq, Repr

/-- Chain of a table: one for each stage other than `runnable`, and one for each ready level. -/
inductive Place where
  /-- The chain of a stage. -/
  | stage (s : Stage)
  /-- The chain of a ready level. -/
  | ready (level : Nat)
  deriving DecidableEq, Repr

/-- The text of a place. -/
def Place.text : Place → String
  | stage s => s.name
  | ready level => s!"ready[{level}]"

namespace Process

/-- The chain on which a process belongs. -/
def home (p : Process) : Place :=
  match p.stage with
  | .runnable => .ready p.priority
  | s => .stage s

/-- Whether a slot is anything but free. -/
def isLive (p : Process) : Bool := p.stage != .unused

/-- The record under a new name. -/
def rename (p : Process) (name : String) : Process := { p with name := clipName name }

/-- The record without the identity of its process.  Priority, budget, owner and clock readings
stay behind. -/
def forget (p : Process) : Process :=
  { p with
    pid := nobody, parent := none, name := "", killed := false, channel := none, size := 0
    callResult := 0 }

end Process

end FeedbackQueue
