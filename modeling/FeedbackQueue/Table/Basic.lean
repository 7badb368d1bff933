import FeedbackQueue.Chain

/-!
# The process table

A `Table P` has one `Process` and one link for every slot, one chain for every `Place`, and for
every CPU the slot that is on it (its *marker*).  The number of slots, ready levels and CPUs is
fixed by the parameters `P`, so it is part of the type.

A slot changes stage by `unlist`, a change of its record, and `enlist`; `move` is the plain case.
The table reads no clock: operations that need the time take it as `now`.

## Main definitions

* `Table.create` : the table with every slot free.
* `Table.unlist`, `Table.enlist`, `Table.move` : take a slot off its home chain and put it back.
* `Table.members`, `Table.find` : the slots of a stage, the slot of a pid.
* `Table.occupant` : the slot on a CPU.
-/

namespace FeedbackQueue

/-- A process table of shape `P`. -/
structure Table (P : Params) where
  /-- The record of every slot. -/
  procs : Vector Process P.capacity
  /-- The links between slots. -/
  links : Links P.capacity
  /-- Free slots. -/
  unused : Chain
  /-- Slots being built. -/
  embryo : Chain
  /-- Blocked processes. -/
  sleeping : Chain
  /-- Processes on a CPU. -/
  running : Chain
  /-- Exited processes. -/
  zombie : Chain
  /-- Processes that wait for a CPU, by ready level. -/
  ready : Vector Chain (P.maxPriority + 1)
  /-- The slot on every CPU. -/
  markers : Vector (Option Slot) P.cpus
  /-- The pid of the next allocation. -/
  nextPid : Nat
  /-- Tick from which on a promotion sweep is due. -/
  sweepAt : Nat
  /-- Slot of the root process. -/
  root : Option Slot
  deriving DecidableEq

namespace Table

variable {P : Params}

/-- The table of a clock reading with every slot free, in slot order. -/
def fresh (P : Params) (now : Nat) : Except Fault (Table P) := do
  let sweepAt ← addBelow word64 now P.sweepEvery
  return {
    procs := Vector.replicate P.capacity {}
    links := Chain.linksUpTo P.capacity
    unused := Chain.upTo P.capacity
    embryo := {}, sleeping := {}, running := {}, zombie := {}
    ready := Vector.replicate (P.maxPriority + 1) {}
    markers := Vector.replicate P.cpus none
    nextPid := 1
    sweepAt
    root := none }

/-- The table with every slot free, for parameters that pass their check. -/
def create (P : Params) (now : Nat) : Except ParamError (Except Fault (Table P)) := do
  P.check
  return fresh P now

/-! ### Records -/

/-- The record of a slot. -/
def process (t : Table P) (i : Slot) : Except Fault Process :=
  match t.procs[i]? with
  | some p => .ok p
  | none => .error .indexOutOfRange

/-- The table with the record of one slot changed. -/
def revise (t : Table P) (i : Slot) (f : Process → Process) : Except Fault (Table P) :=
  if h : i < P.capacity then .ok { t with procs := t.procs.set i (f t.procs[i]) h }
  else .error .indexOutOfRange

/-! ### Chains -/

/-- The chain of a place; `none` when the table has no such place. -/
def chain? (t : Table P) : Place → Option Chain
  | .stage .unused => some t.unused
  | .stage .embryo => some t.embryo
  | .stage .sleeping => some t.sleeping
  | .stage .running => some t.running
  | .stage .zombie => some t.zombie
  | .stage .runnable => none
  | .ready level => t.ready[level]?

/-- The table with another chain at a place that it has. -/
def setChain (t : Table P) (c : Chain) : Place → Table P
  | .stage .unused => { t with unused := c }
  | .stage .embryo => { t with embryo := c }
  | .stage .sleeping => { t with sleeping := c }
  | .stage .running => { t with running := c }
  | .stage .zombie => { t with zombie := c }
  | .stage .runnable => t
  | .ready level => { t with ready := t.ready.setIfInBounds level c }

/-- The places of a table: the stages in listing order, then the ready levels from the lowest. -/
def places (P : Params) : List Place :=
  (Stage.all.filter (· ≠ .runnable)).map .stage ++ (List.range (P.maxPriority + 1)).map .ready

/-- The chain on which a process belongs. -/
def homeChain (t : Table P) (p : Process) : Except Fault Chain :=
  match t.chain? p.home with
  | some c => .ok c
  | none => .error (.noReadyLevel p.priority)

/-- Take a slot off its home chain.  It has to be there, and in the expected stage. -/
def unlist (t : Table P) (i : Slot) (expected : Stage) : Except Fault (Table P) := do
  let p ← t.process i
  let c ← t.homeChain p
  match ← c.remove t.links i with
  | none => throw (.notListed p.pid p.stage i)
  | some (c, links) =>
    p.require expected
    return { t with links }.setChain c p.home

/-- Append a slot to its home chain. -/
def enlist (t : Table P) (i : Slot) : Except Fault (Table P) := do
  let p ← t.process i
  let c ← t.homeChain p
  let (c, links) ← c.push t.links i
  return { t with links }.setChain c p.home

/-- Take a slot from one stage to another. -/
def move (t : Table P) (i : Slot) (source target : Stage) : Except Fault (Table P) := do
  let t ← t.unlist i source
  let t ← t.revise i fun p => { p with stage := target }
  t.enlist i

/-! ### Look-up -/

/-- The slots of a stage in chain order; runnable slots from the highest level down. -/
def members (t : Table P) : Stage → List Slot
  | .unused => t.unused.walk t.links
  | .embryo => t.embryo.walk t.links
  | .sleeping => t.sleeping.walk t.links
  | .running => t.running.walk t.links
  | .zombie => t.zombie.walk t.links
  | .runnable => t.ready.toList.reverse.flatMap (·.walk t.links)

/-- The recorded number of slots of a stage. -/
def count (t : Table P) : Stage → Nat
  | .unused => t.unused.len
  | .embryo => t.embryo.len
  | .sleeping => t.sleeping.len
  | .running => t.running.len
  | .zombie => t.zombie.len
  | .runnable => t.ready.toList.foldr (fun c n => c.len + n) 0

/-- The first slot with a pid, over the given stages in turn. -/
def find (t : Table P) (pid : Pid) (stages : List Stage) : Except Fault (Option Slot) :=
  if pid = nobody then .ok none
  else stages.findSomeM? fun s => (t.members s).findM? fun i => return (← t.process i).pid = pid

/-- The stages in which a pid is looked up, in order. -/
def searched : List Stage := [.running, .runnable, .sleeping, .embryo, .zombie]

/-- The slot on a CPU, if there is one. -/
def occupant? (t : Table P) (cpu : Cpu) : Option Slot := t.markers[cpu]?.join

/-- The slot on a CPU. -/
def occupant (t : Table P) (cpu : Cpu) : Except Fault Slot :=
  match t.occupant? cpu with
  | some i => .ok i
  | none => .error (.idleCpu cpu)

/-- The record of the process on a CPU. -/
def current (t : Table P) (cpu : Cpu) : Except Fault Process := do t.process (← t.occupant cpu)

/-- Whether a CPU is marked with a slot. -/
def isMarked (t : Table P) (i : Slot) : Bool := t.markers.toList.contains (some i)

/-- Take the next pid. -/
def takePid (t : Table P) : Except Fault (Pid × Table P) := do
  let nextPid ← addBelow word32 t.nextPid 1
  return (t.nextPid, { t with nextPid })

/-- The recorded length of a ready level, `0` for a level that does not exist. -/
def readyLen (t : Table P) (level : Nat) : Nat := (t.ready[level]?.map Chain.len).getD 0

/-- The pids on a ready level in dispatch order. -/
def readyPids (t : Table P) (level : Nat) : Except Fault (List Pid) :=
  match t.ready[level]? with
  | some c => (c.walk t.links).mapM fun i => return (← t.process i).pid
  | none => .ok []

end Table

end FeedbackQueue
