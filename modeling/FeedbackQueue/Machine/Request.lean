import FeedbackQueue.Machine.Call
import FeedbackQueue.Failure

/-!
# Requests and outcomes

A `Request` is an operation on a table as its users ask for it, and an `Outcome` is how it ends.
Requests on behalf of a process name the CPU on which it runs.  Some requests call the surrounding
machine on the way and may take long; the others are over at once.
-/

namespace FeedbackQueue

/-- An operation on a table. -/
inductive Request where
  /-- Take a free slot with a pid and a stack. -/
  | allocate
  /-- Make the root process. -/
  | boot (name : String) (image : List UInt8)
  /-- Duplicate the process on a CPU. -/
  | fork (cpu : Cpu)
  /-- End the process on a CPU, up to its last switch. -/
  | exit (cpu : Cpu)
  /-- End the process on a CPU; it must never run again. -/
  | terminate (cpu : Cpu)
  /-- Reap an exited child of the process on a CPU, sleeping until there is one. -/
  | wait (cpu : Cpu)
  /-- Reap an exited child of the process on a CPU, if there is one. -/
  | poll (cpu : Cpu)
  /-- Put the process on a CPU to sleep. -/
  | sleep (cpu : Cpu) (channel : Channel)
  /-- Put the process on a CPU to sleep for a number of ticks. -/
  | sleepFor (cpu : Cpu) (ticks : Nat)
  /-- Let other processes run on a CPU for one round. -/
  | yield (cpu : Cpu)
  /-- Switch away from the process on a CPU, which has left the running stage at `now`. -/
  | switch (cpu : Cpu) (now : Nat)
  /-- Run one process on a CPU, if there is one. -/
  | pass (cpu : Cpu)
  /-- Run processes on a CPU for ever. -/
  | serve (cpu : Cpu)
  /-- Pick a process for an idle CPU. -/
  | dispatch (cpu : Cpu)
  /-- Take a CPU back from the process of its handoff. -/
  | reclaim (cpu : Cpu) (handoff : Handoff)
  /-- Wake the processes that sleep on a channel. -/
  | signal (channel : Channel)
  /-- Wake the processes that sleep on the clock. -/
  | tick
  /-- Wake one sleeping process. -/
  | rouse (slot : Slot)
  /-- Ask a process to end. -/
  | kill (pid : Pid)
  /-- Put a process on a ready level. -/
  | setPriority (pid : Pid) (priority : Nat)
  /-- Set the owner of the process on a CPU. -/
  | setUid (cpu : Cpu) (uid : Nat)
  /-- Set the group of the process on a CPU. -/
  | setGid (cpu : Cpu) (gid : Nat)
  /-- Make a promotion sweep. -/
  | sweep
  /-- Make a promotion sweep if one is due at `now`. -/
  | sweepIfDue (now : Nat)
  deriving DecidableEq, Repr

/-- How a request ends. -/
inductive Outcome where
  /-- The request is done. -/
  | done
  /-- The request is done, or refused. -/
  | answered (result : Except Refusal Unit)
  /-- The slot of an allocation. -/
  | allocated (slot : Except Refusal Slot)
  /-- The pid of a new process. -/
  | created (pid : Except Refusal Pid)
  /-- The pid of the child that a wait reaped, and the CPU on which it ends. -/
  | waited (pid : Except Refusal Pid) (cpu : Cpu)
  /-- The pid of the child that a poll reaped, if there was one. -/
  | polled (pid : Except Refusal (Option Pid))
  /-- The process runs again, on a CPU. -/
  | resumed (cpu : Cpu)
  /-- A timed sleep is over, on a CPU. -/
  | slept (result : Except Refusal Unit) (cpu : Cpu)
  /-- A pass found something to run, or did not. -/
  | passed (found : Bool)
  /-- The process picked by a dispatch, if there was one. -/
  | dispatched (handoff : Option Handoff)
  /-- The number of processes woken. -/
  | woken (count : Nat)

end FeedbackQueue
