import FeedbackQueue.Table.Basic

/-!
# Who is on a CPU

The pid, parent, owner and group of the process on a CPU.  A process without a parent reports
itself as its parent.
-/

namespace FeedbackQueue

namespace Table

variable {P : Params}

/-- The pid of the parent of a process. -/
def parentPid (t : Table P) (p : Process) : Except Fault Pid := do
  match p.parent with
  | some i => return (← t.process i).pid
  | none => return p.pid

/-- The pid of the process on a CPU, if there is one. -/
def currentPid? (t : Table P) (cpu : Cpu) : Except Fault (Option Pid) :=
  (t.occupant? cpu).mapM fun i => return (← t.process i).pid

/-- The pid of the parent of the process on a CPU, if there is a process. -/
def currentParentPid? (t : Table P) (cpu : Cpu) : Except Fault (Option Pid) :=
  (t.occupant? cpu).mapM fun i => do t.parentPid (← t.process i)

/-- The owner of the process on a CPU. -/
def uid (t : Table P) (cpu : Cpu) : Except Fault Nat := return (← t.current cpu).uid

/-- The group of the process on a CPU. -/
def gid (t : Table P) (cpu : Cpu) : Except Fault Nat := return (← t.current cpu).gid

/-- Set the owner of the process on a CPU. -/
def setUid (t : Table P) (cpu : Cpu) (uid : Nat) : Except Fault (Except Refusal (Table P)) := do
  if maxId < uid then return .error .invalidArgument
  return .ok (← t.revise (← t.occupant cpu) fun p => { p with uid })

/-- Set the group of the process on a CPU. -/
def setGid (t : Table P) (cpu : Cpu) (gid : Nat) : Except Fault (Except Refusal (Table P)) := do
  if maxId < gid then return .error .invalidArgument
  return .ok (← t.revise (← t.occupant cpu) fun p => { p with gid })

end Table

end FeedbackQueue
