import FeedbackQueue.Table.Levels

/-!
# Leaving the CPU, sleeping and waking

A process leaves its CPU by `yield`, which queues it again, or by `park`, which puts it to sleep on
a channel; both charge the stint and end in `depart`, after which the machine switches away.

`wake` makes every process that sleeps on a channel runnable, in chain order.  A kill is a request:
it raises a flag and wakes the process, which sees the flag when it runs.
-/

namespace FeedbackQueue

namespace Table

variable {P : Params}

/-! ### Leaving the CPU -/

/-- Switch away from the process on a CPU, which has left the running stage: add the stint that
ends at `now` to its ticks. -/
def depart (t : Table P) (cpu : Cpu) (now : Nat) : Except Fault (Table P) := do
  let i ← t.occupant cpu
  let p ← t.process i
  if p.stage = .running then throw (.stillRunning p.pid)
  let cpuTicks ← addBelow word64 p.cpuTicks (now - p.dispatchedAt)
  let t ← t.revise i fun p => { p with cpuTicks }
  t.settle

/-- Take the running process off a CPU, charge it, change its record, and switch away. -/
def leave (t : Table P) (cpu : Cpu) (now : Nat) (change : Process → Process) :
    Except Fault (Table P) := do
  let i ← t.occupant cpu
  let t ← t.unlist i .running
  let t ← t.charge i now
  let t ← t.revise i change
  let t ← t.enlist i
  t.depart cpu now

/-- Give up a CPU for one round. -/
def yield (t : Table P) (cpu : Cpu) (now : Nat) : Except Fault (Table P) :=
  t.leave cpu now fun p => { p with stage := .runnable }

/-- Put the process on a CPU to sleep. -/
def park (t : Table P) (cpu : Cpu) (channel : Channel) (now : Nat) : Except Fault (Table P) :=
  t.leave cpu now fun p => { p with channel := some channel, stage := .sleeping }

/-! ### Waking -/

/-- Make a sleeping process runnable. -/
def rouse (t : Table P) (i : Slot) : Except Fault (Table P) := do
  let t ← t.unlist i .sleeping
  let t ← t.revise i fun p => { p with channel := none, stage := .runnable }
  t.enlist i

/-- The slots that sleep on a channel, in chain order. -/
def sleepers (t : Table P) (channel : Channel) : Except Fault (List Slot) :=
  (t.members .sleeping).filterM fun i => return (← t.process i).channel = some channel

/-- Make every process that sleeps on a channel runnable; the number of them comes back. -/
def wake (t : Table P) (channel : Channel) : Except Fault (Nat × Table P) := do
  let slots ← t.sleepers channel
  return (slots.length, ← slots.foldlM rouse t)

/-- `wake` as a change of its own. -/
def signal (t : Table P) (channel : Channel) : Except Fault (Nat × Table P) := do
  let (woken, t) ← t.wake channel
  return (woken, ← t.settle)

/-- The clock has moved on: wake the processes that sleep on it. -/
def tick (t : Table P) : Except Fault (Table P) := do return (← t.signal .ticks).2

/-- Wake the processes that sleep on the parent of a process. -/
def wakeParent (t : Table P) (p : Process) : Except Fault (Table P) := do
  match p.parent with
  | some i => return (← t.wake (.process (← t.process i).pid)).2
  | none => return t

/-! ### Killing -/

/-- Ask a process to end. -/
def kill (t : Table P) (pid : Pid) : Except Fault (Except Refusal (Table P)) := do
  match ← t.find pid searched with
  | none => return .error .notFound
  | some i =>
    let t ← t.revise i fun p => { p with killed := true }
    let t ← if (← t.process i).stage = .sleeping then t.rouse i else pure t
    return .ok (← t.settle)

/-- Whether the process on a CPU has been asked to end. -/
def isKilled (t : Table P) (cpu : Cpu) : Except Fault Bool := return (← t.current cpu).killed

end Table

end FeedbackQueue
