import FeedbackQueue.Table.Blocking

/-!
# Dispatching

A CPU takes the first runnable process of the highest ready level and is marked with its slot.  The
marker stays until the CPU is taken back, also after the process has yielded, gone to sleep or
exited: its context is still being saved there, and a marked slot is neither dispatched again nor
reaped.
-/

namespace FeedbackQueue

namespace Table

variable {P : Params}

/-- The slot that the next dispatch takes. -/
def next? (t : Table P) : Option Slot := (t.members .runnable).find? fun i => !t.isMarked i

/-- Pick a process for an idle CPU and mark it running there; `none` when there is none. -/
def dispatch (t : Table P) (cpu : Cpu) (now : Nat) :
    Except Fault (Option (Handoff × Table P)) := do
  if let some busy := t.occupant? cpu then throw (.cpuBusy cpu (← t.process busy).pid)
  if h : cpu < P.cpus then
    match t.next? with
    | none => return none
    | some i =>
      let t ← t.unlist i .runnable
      let t ← t.revise i fun p => { p with stage := .running, dispatchedAt := now }
      let t ← t.enlist i
      let pid := (← t.process i).pid
      let t ← settle { t with markers := t.markers.set cpu (some i) h }
      return some ({ slot := i, pid }, t)
  else throw (.cpuOutOfRange cpu)

/-- Take a CPU back from the process of its handoff.  The parent of an exited process looks for it
again now that it can be reaped, and a promotion sweep is made if one is due. -/
def reclaim (t : Table P) (cpu : Cpu) (handoff : Handoff) (now : Nat) :
    Except Fault (Table P) := do
  if t.occupant? cpu ≠ some handoff.slot then throw (.handoffMismatch cpu handoff.pid)
  let t := { t with markers := t.markers.setIfInBounds cpu none }
  let p ← t.process handoff.slot
  -- The marker has kept an exited process from being reaped, so its parent may be asleep.
  let t ← if p.stage = .zombie then t.wakeParent p else pure t
  let t ← t.sweepIfDue now
  t.settle

/-- A CPU found nothing to run: make a promotion sweep if one is due. -/
def rest (t : Table P) (now : Nat) : Except Fault (Table P) := do
  let t ← t.sweepIfDue now
  t.settle

end Table

end FeedbackQueue
