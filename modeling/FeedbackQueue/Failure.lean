import FeedbackQueue.Process
import FeedbackQueue.Word

/-!
# Refusals, defects and faults

An operation fails in one of two ways.  A `Refusal` is an answer: the caller goes on.  A `Fault`
ends everything: the table is not to be used after it.  A `Defect` is what an audit finds wrong
with a table, and an audited table turns it into a fault.
-/

namespace FeedbackQueue

/-- Why an operation is refused. -/
inductive Refusal where
  /-- No slot is free. -/
  | outOfProcesses
  /-- A stack or an address space could not be allocated. -/
  | resourceExhausted
  /-- The caller has no children, or has been killed. -/
  | noChildren
  /-- No process has the pid. -/
  | notFound
  /-- The priority is above the top level. -/
  | invalidPriority
  /-- The argument is out of range. -/
  | invalidArgument
  /-- The caller was killed while it was blocked. -/
  | killed
  deriving DecidableEq, Repr

/-- The text of a refusal. -/
def Refusal.message : Refusal → String
  | outOfProcesses => "out of processes"
  | resourceExhausted => "resource exhausted"
  | noChildren => "no children"
  | notFound => "no such process"
  | invalidPriority => "invalid priority"
  | invalidArgument => "invalid argument"
  | killed => "killed"

/-- What is wrong with a table. -/
inductive Defect where
  /-- A chain or a CPU marker names a slot that does not exist. -/
  | badIndex (place : Place) (slot : Slot)
  /-- A slot is reached twice. -/
  | duplicate (slot : Slot) (first second : Place)
  /-- A slot is on no chain. -/
  | missing (slot : Slot)
  /-- A slot is on a chain that is not its home. -/
  | wrongPlace (slot : Slot) (stage : Stage) (place : Place)
  /-- A priority is above the top level. -/
  | badPriority (slot : Slot) (priority : Nat)
  /-- A recorded length is not the length of the walk. -/
  | lengthMismatch (place : Place) (recorded walked : Nat)
  /-- A recorded tail is not where the walk ends. -/
  | badTail (place : Place)
  /-- The last slot of a walk links onward. -/
  | unterminated (place : Place)
  /-- The chains together have another length than the table. -/
  | countMismatch (total capacity : Nat)
  /-- Two CPU markers name one slot. -/
  | sharedSlot (slot : Slot) (first second : Cpu)
  /-- A running slot is named by no CPU marker. -/
  | unscheduled (slot : Slot)
  deriving DecidableEq, Repr

/-- The text of a defect. -/
def Defect.message : Defect → String
  | badIndex place slot => s!"{place.text} links to slot {slot} outside the arena"
  | duplicate slot first second => s!"slot {slot} on {first.text} and again on {second.text}"
  | missing slot => s!"slot {slot} is on no list"
  | wrongPlace slot stage place => s!"slot {slot} in state {stage.name} found on {place.text}"
  | badPriority slot priority => s!"slot {slot} has priority {priority}"
  | lengthMismatch place recorded walked =>
    s!"{place.text} records {recorded} entries, walk found {walked}"
  | badTail place => s!"{place.text} tail is not its last node"
  | unterminated place => s!"{place.text} does not end at its tail"
  | countMismatch total capacity => s!"{total} slots on lists, capacity {capacity}"
  | sharedSlot slot first second =>
    s!"slot {slot} marked running on cpu {first} and cpu {second}"
  | unscheduled slot => s!"slot {slot} is running on no cpu"

/-- The text that says that a slot is not on a chain. -/
def absenceMessage (slot : Slot) : String := s!"slot {slot} is not on the list"

/-- What ends everything. -/
inductive Fault where
  /-- A slot that does not exist was used. -/
  | indexOutOfRange
  /-- A sum or a difference does not fit in its word. -/
  | overflow
  /-- A runnable process has a priority without a ready chain. -/
  | noReadyLevel (priority : Nat)
  /-- A slot is not on its home chain. -/
  | notListed (pid : Pid) (stage : Stage) (slot : Slot)
  /-- A process is in another stage than its caller expects. -/
  | wrongStage (pid : Pid) (found expected : Stage)
  /-- No process is on the CPU. -/
  | idleCpu (cpu : Cpu)
  /-- There is a root process already. -/
  | rootExists
  /-- The image of the root process could not be mapped. -/
  | rootUnmapped (name : String)
  /-- The root process exits. -/
  | rootExits
  /-- A process went on after its exit. -/
  | zombieRan
  /-- An audit found a defect. -/
  | inconsistent (defect : Defect)
  /-- A CPU dispatches while a process is still on it. -/
  | cpuBusy (cpu : Cpu) (pid : Pid)
  /-- There is no such CPU. -/
  | cpuOutOfRange (cpu : Cpu)
  /-- A handoff does not name the process of its CPU. -/
  | handoffMismatch (cpu : Cpu) (pid : Pid)
  /-- A process switches away without having left the running stage. -/
  | stillRunning (pid : Pid)
  deriving DecidableEq, Repr

/-- The text of a fault. -/
def Fault.message : Fault → String
  | indexOutOfRange => "index_out_of_bounds"
  | overflow => "overflow"
  | noReadyLevel priority => s!"[PROC] priority {priority} has no ready list"
  | notListed pid stage slot =>
    s!"[PROC] pid {pid} missing from {stage.name} list: {absenceMessage slot}"
  | wrongStage pid found expected =>
    s!"[PROC] pid {pid}: state is {found.name}, expected {expected.name}"
  | idleCpu cpu => s!"[PROC] cpu {cpu} has no current process"
  | rootExists => "[PROC] init_root: root process already exists"
  | rootUnmapped name => s!"[PROC] init_root: out of memory for {name}"
  | rootExits => "[PROC] root process exiting"
  | zombieRan => "[PROC] zombie exit"
  | inconsistent defect => s!"[PROC] process array and lists inconsistent: {defect.message}"
  | cpuBusy cpu pid => s!"[SCHED] cpu {cpu} dispatching while pid {pid} is still on it"
  | cpuOutOfRange cpu => s!"[SCHED] cpu {cpu} out of range"
  | handoffMismatch cpu pid =>
    s!"[SCHED] cpu {cpu}: handoff for pid {pid} does not match the running slot"
  | stillRunning pid => s!"[SCHED] sched: pid {pid} is still running"

/-! ### Checks -/

/-- The sum, if it is below `limit`. -/
def addBelow (limit a b : Nat) : Except Fault Nat :=
  if a + b < limit then .ok (a + b) else .error .overflow

theorem addBelow_eq_ok {limit a b c : Nat} :
    addBelow limit a b = .ok c ↔ a + b < limit ∧ a + b = c := by
  unfold addBelow
  split <;> simp [*]

/-- The predecessor, if there is one. -/
def decrement : Nat → Except Fault Nat
  | 0 => .error .overflow
  | n + 1 => .ok n

theorem decrement_eq_ok {n m : Nat} : decrement n = .ok m ↔ n = m + 1 := by
  cases n <;> simp [decrement]

/-- A fault unless the process is in the stage its caller expects. -/
def Process.require (p : Process) (expected : Stage) : Except Fault Unit :=
  if p.stage = expected then .ok () else .error (.wrongStage p.pid p.stage expected)

theorem Process.require_eq_ok {p : Process} {expected : Stage} :
    p.require expected = .ok () ↔ p.stage = expected := by
  unfold Process.require
  split <;> simp [*]

end FeedbackQueue
