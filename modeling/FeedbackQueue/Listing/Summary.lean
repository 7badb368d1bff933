import FeedbackQueue.Table.Identity

/-!
# Summaries of processes

A `Summary` is what the outside sees of a process at one reading of the clock.

## Main definitions

* `Table.snapshot` : the first processes in slot order, leaving out those being built.
* `Table.lookup` : the process of a pid.
-/

namespace FeedbackQueue

/-- What the outside sees of a process. -/
structure Summary where
  /-- Pid. -/
  pid : Pid
  /-- Pid of the parent, or its own for a process without a parent. -/
  parentPid : Pid
  /-- Owner. -/
  uid : Nat
  /-- Group. -/
  gid : Nat
  /-- Ready level. -/
  priority : Nat
  /-- Ticks left at this level. -/
  budget : Int
  /-- Stage of the lifecycle. -/
  stage : Stage
  /-- Ticks since the allocation. -/
  elapsed : Nat
  /-- Ticks spent on a CPU in completed stints. -/
  cpuTicks : Nat
  /-- Bytes of the address space. -/
  size : Nat
  /-- Name. -/
  name : String
  deriving DecidableEq, Repr

namespace Table

variable {P : Params}

/-- The summary of a process at `now`. -/
def summary (t : Table P) (now : Nat) (p : Process) : Except Fault Summary := do
  let parentPid ← t.parentPid p
  return {
    pid := p.pid, parentPid, uid := p.uid, gid := p.gid, priority := p.priority
    budget := p.budget, stage := p.stage, elapsed := now - p.startedAt, cpuTicks := p.cpuTicks
    size := p.size, name := p.name }

/-- Summaries of the first `limit` processes in slot order, but at most `snapshotLimit`; free slots
and processes being built are left out. -/
def snapshot (t : Table P) (now limit : Nat) : Except Fault (List Summary) :=
  let shown := t.procs.toList.filter fun p => p.stage ≠ .unused ∧ p.stage ≠ .embryo
  (shown.take (min limit snapshotLimit)).mapM (t.summary now)

/-- The summary of the process with a pid. -/
def lookup (t : Table P) (now : Nat) (pid : Pid) : Except Fault (Option Summary) := do
  match ← t.find pid searched with
  | some i => return some (← t.summary now (← t.process i))
  | none => return none

end Table

end FeedbackQueue
