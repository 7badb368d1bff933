import FeedbackQueue.Machine.Suspension
import FeedbackQueue.Table.Dispatch
import FeedbackQueue.Table.Identity

/-!
# Running requests

`Request.start` takes a request to its end or to its first call, and `Suspension.resume` takes a
suspension from the answer of its call to the end or to the next call.  Each is one uninterrupted
stretch; whatever happens between two stretches happens to the table that the next one is given.
Loops (a wait that finds no exited child, a timed sleep that is woken early, a CPU that serves for
ever) go through a call in every round, so a stretch always ends.

A stretch is given what the clock reads in its course.  The clock runs on while the table is held,
and a timed sleep looks at it up to three times: when it is asked for, when it sees whether its time
is up, and when it goes to sleep.  Every other stretch goes by one reading.

Allocations, exits, yields, dispatches and reclaims read the clock just before they take hold of the
table.  Here a reading and the hold that follows it are one step, so readings are assumed to come in
the order of the stretches: what is said of a clock that does not go back is said of readings that
do not decrease in that order, and where nothing is said of the clock, readings may be any.

## Main definitions

* `Clock` : what the clock reads in the course of a stretch.
* `Request.start`, `Suspension.resume` : the stretches of a request.
* `Stretch` : how a stretch ends; a fault leaves no table behind.
-/

namespace FeedbackQueue

variable {P : Params}

/-- What the clock reads in the course of a stretch. -/
structure Clock where
  /-- The last reading, and the only one unless a timed sleep goes through a round. -/
  now : Nat
  /-- When a timed sleep is asked for, before the table is held. -/
  begun : Nat := now
  /-- When a timed sleep sees whether its time is up. -/
  seen : Nat := now
  deriving DecidableEq, Repr

/-- A clock that stands still for a stretch. -/
instance : Coe Nat Clock := ⟨fun now => { now }⟩

instance {n : Nat} : OfNat Clock n := ⟨{ now := n }⟩

/-- The result of one stretch. -/
abbrev Stretch (P : Params) := Except Fault (Progress × Table P)

/-- The request has ended, with the table `t`. -/
def Table.finish (t : Table P) (outcome : Outcome) : Stretch P := .ok (.returned outcome, t)

/-- The request has ended: with a new table, or refused and the table `t` unchanged. -/
def Table.finishOr (t : Table P) : Except Refusal (Table P) → Stretch P
  | .ok t => t.finish (.answered (.ok ()))
  | .error why => t.finish (.answered (.error why))

/-- The request waits, with the table `t`. -/
def Table.suspend (t : Table P) (s : Suspension) : Stretch P := .ok (.waiting s, t)

namespace Purpose

/-- The end of a request whose allocation was refused. -/
def refused (why : Refusal) : Purpose → Outcome
  | bare => .allocated (.error why)
  | root _ _ | child _ => .created (.error why)

end Purpose

/-! ### Birth -/

/-- Take a free slot, and ask for its stack. -/
def Table.allocateFor (t : Table P) (purpose : Purpose) (now : Nat) : Stretch P := do
  match ← t.conceive now with
  | none => t.finish (purpose.refused .outOfProcesses)
  | some (i, t) => t.suspend (.allocating i purpose)

/-- The fork of a child cannot be completed. -/
def Table.abandonFork (t : Table P) (i : Slot) : Stretch P := do
  let (stack, t) ← t.abandon i
  match stack with
  | some stack => t.suspend (.undoing stack)
  | none => t.finish (.created (.error .resourceExhausted))

/-- Go on with a slot that has its stack. -/
def Table.furnish (t : Table P) (i : Slot) : Purpose → Stretch P
  | .bare => t.finish (.allocated (.ok i))
  | .root name image => t.suspend (.mapping i name image)
  | .child plan =>
    match plan.space with
    | some source => t.suspend (.copying i plan source)
    | none => t.abandonFork i

/-- Start a child that has everything. -/
def Table.finishFork (t : Table P) (i : Slot) (plan : Blueprint) (space : AddressSpace)
    (files : List FileHandle) (cwd : Option FileHandle) : Stretch P := do
  let (pid, t) ← t.launch i plan space files cwd
  t.finish (.created (.ok pid))

/-- Duplicate the remaining files of a child, then the working directory, then start the child. -/
def Table.duplicateFiles (t : Table P) (i : Slot) (plan : Blueprint) (space : AddressSpace)
    (copies : List FileHandle) : List FileHandle → Stretch P
  | file :: rest => t.suspend (.duplicating i plan space copies file rest)
  | [] =>
    match plan.cwd with
    | some dir => t.suspend (.duplicatingCwd i plan space copies dir)
    | none => t.finishFork i plan space copies none

/-! ### Death -/

/-- Close the remaining files of an exiting process, then retire it. -/
def Table.closeFiles (t : Table P) (cpu : Cpu) (last : Resumption) (now : Nat) :
    List FileHandle → Stretch P
  | file :: rest => t.suspend (.closing cpu last file rest)
  | [] => do
    let t ← t.retire cpu now
    t.suspend (.switching cpu last)

/-- The process on a CPU exits. -/
def Table.exit (t : Table P) (cpu : Cpu) (last : Resumption) (now : Nat) : Stretch P := do
  let (files, t) ← t.surrenderFiles cpu
  t.closeFiles cpu last now files

/-- The end of a request that reaped a child. -/
def Reaper.outcome (pid : Pid) : Reaper → Outcome
  | .wait cpu => .waited (.ok pid) cpu
  | .poll => .polled (.ok (some pid))

/-- Free the address space of a reaped child. -/
def Table.releaseSpace (t : Table P) (reaper : Reaper) (pid : Pid) (space : Option AddressSpace) :
    Stretch P :=
  match space with
  | some space => t.suspend (.freeingSpace reaper pid space)
  | none => t.finish (reaper.outcome pid)

/-- Free what is left of a reaped child, its stack first. -/
def Table.release (t : Table P) (reaper : Reaper) (remains : Remains) : Stretch P :=
  match remains.stack with
  | some stack => t.suspend (.freeingStack reaper remains.pid stack remains.space)
  | none => t.releaseSpace reaper remains.pid remains.space

/-- One round of a wait: reap an exited child, or sleep until there may be one. -/
def Table.waitRound (t : Table P) (cpu : Cpu) (now : Nat) : Stretch P := do
  match ← t.scan cpu with
  | .noChildren => t.finish (.waited (.error .noChildren) cpu)
  | .reaped remains t =>
    let t ← t.settle
    t.release (.wait cpu) remains
  | .pending =>
    let me ← t.current cpu
    let t ← t.park cpu (.process me.pid) now
    t.suspend (.switching cpu .wait)

/-- Reap an exited child if there is one. -/
def Table.poll (t : Table P) (cpu : Cpu) : Stretch P := do
  match ← t.scan cpu with
  | .noChildren => t.finish (.polled (.error .noChildren))
  | .reaped remains t =>
    let t ← t.settle
    t.release .poll remains
  | .pending => t.finish (.polled (.ok none))

/-! ### Sleeping -/

/-- One round of a timed sleep: end when the time is up, as `seen`, or the process has been killed,
and go to sleep until the next tick, at `now`, otherwise. -/
def Table.sleepRound (t : Table P) (cpu : Cpu) (start ticks seen now : Nat) : Stretch P := do
  if ticks ≤ seen - start then t.finish (.slept (.ok ()) cpu)
  else if (← t.current cpu).killed then t.finish (.slept (.error .killed) cpu)
  else
    let t ← t.park cpu .ticks now
    t.suspend (.switching cpu (.sleepFor start ticks))

/-- What a process does when it runs again on a CPU. -/
def Table.proceed (t : Table P) (cpu : Cpu) (clock : Clock) : Resumption → Stretch P
  | .exit => t.finish .done
  | .terminate => throw .zombieRan
  | .wait => t.waitRound cpu clock.now
  | .proceed => t.finish (.resumed cpu)
  | .sleepFor start ticks => t.sleepRound cpu start ticks clock.seen clock.now

/-! ### Dispatching -/

/-- Dispatch on a CPU with interrupts enabled. -/
def Table.dispatchRound (t : Table P) (cpu : Cpu) (forever : Bool) (now : Nat) : Stretch P := do
  match ← t.dispatch cpu now with
  | some (handoff, t) => t.suspend (.running cpu handoff forever)
  | none =>
    let t ← t.rest now
    if forever then t.suspend (.idling cpu) else t.finish (.passed false)

/-- Take a CPU back. -/
def Table.reclaimRound (t : Table P) (cpu : Cpu) (handoff : Handoff) (forever : Bool) (now : Nat) :
    Stretch P := do
  let t ← t.reclaim cpu handoff now
  if forever then t.suspend (.enabling cpu true) else t.finish (.passed true)

/-! ### The machine -/

/-- Take a request to its end or to its first call. -/
def Request.start (clock : Clock) (t : Table P) : Request → Stretch P
  | .allocate => t.allocateFor .bare clock.now
  | .boot name image => do
    if t.root.isSome then throw .rootExists
    t.allocateFor (.root name image) clock.now
  | .fork cpu => do
    let plan ← t.blueprint cpu
    t.allocateFor (.child plan) clock.now
  | .exit cpu => t.exit cpu .exit clock.now
  | .terminate cpu => t.exit cpu .terminate clock.now
  | .wait cpu => t.waitRound cpu clock.now
  | .poll cpu => t.poll cpu
  | .sleep cpu channel => do
    let t ← t.park cpu channel clock.now
    t.suspend (.switching cpu .proceed)
  | .sleepFor cpu ticks => t.sleepRound cpu clock.begun ticks clock.seen clock.now
  | .yield cpu => do
    let t ← t.yield cpu clock.now
    t.suspend (.switching cpu .proceed)
  | .switch cpu left => do
    let t ← t.depart cpu left
    t.suspend (.switching cpu .proceed)
  | .pass cpu => t.suspend (.enabling cpu false)
  | .serve cpu => t.suspend (.enabling cpu true)
  | .dispatch cpu => do
    match ← t.dispatch cpu clock.now with
    | some (handoff, t) => t.finish (.dispatched (some handoff))
    | none => t.finish (.dispatched none)
  | .reclaim cpu handoff => do (← t.reclaim cpu handoff clock.now).finish .done
  | .signal channel => do
    let (count, t) ← t.signal channel
    t.finish (.woken count)
  | .tick => do (← t.tick).finish .done
  | .rouse i => do (← t.rouse i).finish .done
  | .kill pid => do t.finishOr (← t.kill pid)
  | .setPriority pid priority => do t.finishOr (← t.setPriority pid priority)
  | .setUid cpu uid => do t.finishOr (← t.setUid cpu uid)
  | .setGid cpu gid => do t.finishOr (← t.setGid cpu gid)
  | .sweep => do (← t.sweep).finish .done
  | .sweepIfDue due => do (← t.sweepIfDue due).finish .done

/-- Take a suspension from the answer of its call to its end or to the next call. -/
def Suspension.resume (clock : Clock) (t : Table P) : (s : Suspension) → s.call.Answer → Stretch P
  | .allocating i purpose, some stack => do
    let t ← t.giveStack i stack
    t.furnish i purpose
  | .allocating i purpose, none => do
    let t ← t.discard i
    t.finish (purpose.refused .resourceExhausted)
  | .mapping i name _, some space => do
    let (pid, t) ← t.crown i name space
    t.finish (.created (.ok pid))
  | .mapping _ name _, none => throw (.rootUnmapped name)
  | .copying i plan _, some space => t.duplicateFiles i plan space [] plan.files
  | .copying i _ _, none => t.abandonFork i
  | .duplicating i plan space copies _ rest, copy =>
    t.duplicateFiles i plan space (copies ++ [copy]) rest
  | .duplicatingCwd i plan space copies _, copy => t.finishFork i plan space copies (some copy)
  | .undoing _, () => t.finish (.created (.error .resourceExhausted))
  | .closing cpu last _ rest, () => t.closeFiles cpu last clock.now rest
  | .switching _ resumption, cpu => t.proceed cpu clock resumption
  | .freeingStack reaper pid _ space, () => t.releaseSpace reaper pid space
  | .freeingSpace reaper pid _, () => t.finish (reaper.outcome pid)
  | .enabling cpu forever, () => t.dispatchRound cpu forever clock.now
  | .running cpu _ forever, handoff => t.reclaimRound cpu handoff forever clock.now
  | .idling cpu, () => t.suspend (.enabling cpu true)

end FeedbackQueue
