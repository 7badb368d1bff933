import FeedbackQueue.Table.Audit

/-!
# Ready levels

Two rules move a process between ready levels.

* *Demotion*: the ticks of a stint that ends in a yield or a sleep are taken off the budget; a
  budget that is used up costs one level and is refilled (`Process.charge`).
* *Promotion*: a sweep raises every runnable, running and sleeping process below the top by one
  level and refills its budget (`Table.sweep`); a sweep is due every `Params.sweepEvery` ticks
  (`Table.sweepIfDue`).

`Table.setPriority` puts one process on a level of the caller's choice.
-/

namespace FeedbackQueue

/-- The record after a stint that ends at `now`, where a used-up budget is refilled to `refill`.
The length of the stint is read as a signed word. -/
def Process.charge (p : Process) (refill : Int) (now : Nat) : Process :=
  let budget := clamp64 (p.budget - signed64 (now - p.dispatchedAt))
  if budget ≤ 0 then { p with priority := p.priority - 1, budget := refill }
  else { p with budget }

namespace Table

variable {P : Params}

/-- Charge the process of a slot for a stint that ends at `now`. -/
def charge (t : Table P) (i : Slot) (now : Nat) : Except Fault (Table P) :=
  t.revise i (·.charge P.budget now)

/-- The table with the process of a slot one level higher, with a full budget. -/
def raise (t : Table P) (i : Slot) : Except Fault (Table P) := do
  let p ← t.process i
  let priority ← addBelow word32 p.priority 1
  t.revise i fun p => { p with priority, budget := P.budget }

/-- Move the first `k` processes of a ready level to the end of the next one, or all if there are
fewer. -/
def liftLevel (level : Nat) (h : level < P.maxPriority) :
    (k : Nat) → Table P → Except Fault (Table P)
  | 0, t => .ok t
  | k + 1, t => do
    match ← t.ready[level].pop t.links with
    | none => return t
    | some (i, c, links) =>
      let t ← raise { t with links, ready := t.ready.set level c } i
      let (c, links) ← t.ready[level + 1].push t.links i
      liftLevel level h k { t with links, ready := t.ready.set (level + 1) c }

/-- Empty the ready levels below `k` into their next ones, from the highest down, so that no
process moves twice.  A level is emptied in one step more than it records slots: a chain that goes
on beyond its recorded length faults in that step. -/
def liftLevels : (k : Nat) → k ≤ P.maxPriority → Table P → Except Fault (Table P)
  | 0, _, t => .ok t
  | level + 1, h, t => do
    let t ← liftLevel level h (t.ready[level].len + 1) t
    liftLevels level (Nat.le_of_succ_le h) t

/-- Raise the process of a slot in place, unless it is at the top. -/
def raiseInPlace (t : Table P) (i : Slot) : Except Fault (Table P) := do
  if (← t.process i).priority < P.maxPriority then t.raise i else return t

/-- The promotion sweep. -/
def sweep (t : Table P) : Except Fault (Table P) := do
  let t ← liftLevels P.maxPriority (Nat.le_refl _) t
  let t ← (t.members .running).foldlM raiseInPlace t
  (t.members .sleeping).foldlM raiseInPlace t

/-- The promotion sweep, if it is due at `now`.  A table with one level has no sweeps. -/
def sweepIfDue (t : Table P) (now : Nat) : Except Fault (Table P) := do
  if t.sweepAt ≤ now ∧ 0 < P.maxPriority then
    let t ← t.sweep
    let sweepAt ← addBelow word64 now P.sweepEvery
    return { t with sweepAt }
  else return t

/-- The priority of a process. -/
def priority? (t : Table P) (pid : Pid) : Except Fault (Option Nat) := do
  match ← t.find pid searched with
  | some i => return some (← t.process i).priority
  | none => return none

/-- Put a process on a level, with a full budget. -/
def setPriority (t : Table P) (pid : Pid) (priority : Nat) :
    Except Fault (Except Refusal (Table P)) := do
  if P.maxPriority < priority then return .error .invalidPriority
  match ← t.find pid [.running, .runnable, .sleeping] with
  | none => return .error .notFound
  | some i =>
    let p ← t.process i
    let assign (p : Process) : Process := { p with priority, budget := P.budget }
    if p.stage = .runnable ∧ p.priority ≠ priority then
      let t ← t.unlist i .runnable
      let t ← t.revise i assign
      let t ← t.enlist i
      return .ok (← t.settle)
    else
      let t ← t.revise i assign
      return .ok (← t.settle)

end Table

end FeedbackQueue
