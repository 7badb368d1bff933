/-!
# Parameters of a process table

`Params` fixes the shape of a table (slots, ready levels, CPUs) and its policy (the budget of a
level, the interval between promotion sweeps).  `Params.check` refuses parameters that describe
no usable table; of several faults it reports the first in the order of `ParamError`.
-/

namespace FeedbackQueue

/-- Slots of a default table. -/
def defaultCapacity : Nat := 64

/-- Top ready level of a default table; level `0` is served last. -/
def defaultMaxPriority : Nat := 6

/-- Ticks that a process may run at one level of a default table. -/
def defaultBudget : Int := 300

/-- Ticks between two promotion sweeps of a default table. -/
def defaultSweepEvery : Nat := 3000

/-- The most CPUs that a table serves. -/
def maxCpus : Nat := 8

/-- Whether a default table audits itself after every change. -/
def defaultAudited : Bool := true

/-- Owner of the root process. -/
def rootUid : Nat := 0

/-- Group of the root process. -/
def rootGid : Nat := 0

/-- The largest user or group number that a process may take. -/
def maxId : Nat := 32767

/-- The most processes that one snapshot shows. -/
def snapshotLimit : Nat := 64

/-- Bytes of a page; the root process starts with one page of memory. -/
def pageSize : Nat := 4096

/-- The most bytes that a process name keeps. -/
def nameLimit : Nat := 16

/-- Clock ticks in a second. -/
def ticksPerSecond : Nat := 1000

/-- Shape and policy of a process table. -/
structure Params where
  /-- Number of slots. -/
  capacity : Nat := defaultCapacity
  /-- Top ready level. -/
  maxPriority : Nat := defaultMaxPriority
  /-- Budget given on demotion, on promotion and with a new priority. -/
  budget : Int := defaultBudget
  /-- Ticks between two promotion sweeps. -/
  sweepEvery : Nat := defaultSweepEvery
  /-- Number of CPUs. -/
  cpus : Nat := maxCpus
  /-- Whether every change is followed by an audit. -/
  audited : Bool := defaultAudited
  deriving DecidableEq, Repr

/-- Why parameters are refused. -/
inductive ParamError where
  /-- There is no slot. -/
  | zeroCapacity
  /-- The number of CPUs is zero or above `maxCpus`. -/
  | cpuCount (n : Nat)
  /-- The budget is zero or negative. -/
  | nonPositiveBudget (budget : Int)
  /-- Sweeps would follow each other without a tick between them. -/
  | zeroInterval
  deriving DecidableEq, Repr

/-- The text of a refusal. -/
def ParamError.message : ParamError → String
  | zeroCapacity => "process table capacity is zero"
  | cpuCount n => s!"cpu count {n} outside 1..={maxCpus}"
  | nonPositiveBudget budget => s!"budget {budget} is not positive"
  | zeroInterval => "promotion interval is zero"

/-- Whether the parameters describe a usable table. -/
def Params.check (P : Params) : Except ParamError Unit :=
  if P.capacity = 0 then .error .zeroCapacity
  else if P.cpus = 0 ∨ maxCpus < P.cpus then .error (.cpuCount P.cpus)
  else if P.budget ≤ 0 then .error (.nonPositiveBudget P.budget)
  else if P.sweepEvery = 0 then .error .zeroInterval
  else .ok ()

example : ({} : Params).check = .ok () := rfl

/-- Parameters that pass their check are within their bounds. -/
theorem Params.of_check {P : Params} (h : P.check = .ok ()) : 0 < P.capacity ∧ 0 < P.cpus ∧
    P.cpus ≤ maxCpus ∧ 0 < P.budget ∧ 0 < P.sweepEvery := by
  unfold check at h
  split at h
  · cases h
  split at h
  · cases h
  split at h
  · cases h
  split at h
  · cases h
  omega

end FeedbackQueue
