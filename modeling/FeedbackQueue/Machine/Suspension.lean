import FeedbackQueue.Machine.Request
import FeedbackQueue.Table.Family

/-!
# Suspensions

While a call is open the request that made it is a `Suspension`: plain data that names the place
where it goes on and holds what it needs there.  `Suspension.call` is the open call.
-/

namespace FeedbackQueue

/-- What an allocated slot is for. -/
inductive Purpose where
  /-- Nothing further. -/
  | bare
  /-- The root process. -/
  | root (name : String) (image : List UInt8)
  /-- A child. -/
  | child (plan : Blueprint)
  deriving DecidableEq, Repr

/-- What a process does when it runs again after a switch. -/
inductive Resumption where
  /-- It has exited. -/
  | exit
  /-- It has exited, and must not run again. -/
  | terminate
  /-- It looks for an exited child. -/
  | wait
  /-- It goes on. -/
  | proceed
  /-- It goes on once `ticks` ticks have passed since `start`. -/
  | sleepFor (start ticks : Nat)
  deriving DecidableEq, Repr

/-- How a child was asked for. -/
inductive Reaper where
  /-- By `Request.wait`, on the CPU where it ends. -/
  | wait (cpu : Cpu)
  /-- By `Request.poll`. -/
  | poll
  deriving DecidableEq, Repr

/-- An operation that waits for an answer. -/
inductive Suspension where
  /-- For the stack of a new slot. -/
  | allocating (slot : Slot) (purpose : Purpose)
  /-- For the address space of the root process. -/
  | mapping (slot : Slot) (name : String) (image : List UInt8)
  /-- For the address space of a child. -/
  | copying (slot : Slot) (plan : Blueprint) (source : AddressSpace)
  /-- For a duplicate of `file`, after those in `copies` and before those of `rest`. -/
  | duplicating (slot : Slot) (plan : Blueprint) (space : AddressSpace) (copies : List FileHandle)
    (file : FileHandle) (rest : List FileHandle)
  /-- For a duplicate of the working directory, after all files. -/
  | duplicatingCwd (slot : Slot) (plan : Blueprint) (space : AddressSpace)
    (copies : List FileHandle) (dir : FileHandle)
  /-- For the stack of a fork that failed to be freed. -/
  | undoing (stack : KernelStack)
  /-- For `file` to be closed, before those of `rest`, in an exit that ends in `last`. -/
  | closing (cpu : Cpu) (last : Resumption) (file : FileHandle) (rest : List FileHandle)
  /-- For the process to run again. -/
  | switching (cpu : Cpu) (resumption : Resumption)
  /-- For the stack of a reaped child to be freed, before its address space. -/
  | freeingStack (reaper : Reaper) (pid : Pid) (stack : KernelStack) (space : Option AddressSpace)
  /-- For the address space of a reaped child to be freed. -/
  | freeingSpace (reaper : Reaper) (pid : Pid) (space : AddressSpace)
  /-- For interrupts to be enabled, once or, where `forever`, before every round. -/
  | enabling (cpu : Cpu) (forever : Bool)
  /-- For a dispatched process to give its CPU back. -/
  | running (cpu : Cpu) (handoff : Handoff) (forever : Bool)
  /-- For an interrupt on a CPU with nothing to run. -/
  | idling (cpu : Cpu)
  deriving DecidableEq, Repr

/-- The open call of a suspension. -/
@[reducible] def Suspension.call : Suspension → Call
  | allocating _ _ => .allocStack
  | mapping _ _ image => .mapImage image
  | copying _ plan source => .copySpace source plan.size
  | duplicating _ _ _ _ file _ => .duplicate file
  | duplicatingCwd _ _ _ _ dir => .duplicate dir
  | undoing stack => .freeStack stack
  | closing _ _ file _ => .close file
  | switching cpu _ => .switch cpu
  | freeingStack _ _ stack _ => .freeStack stack
  | freeingSpace _ _ space => .freeSpace space
  | enabling cpu _ => .enableInterrupts cpu
  | running cpu handoff _ => .run cpu handoff
  | idling cpu => .awaitInterrupt cpu

/-- A request that has ended or waits for an answer. -/
inductive Progress where
  /-- It has ended. -/
  | returned (outcome : Outcome)
  /-- It waits for an answer. -/
  | waiting (s : Suspension)

end FeedbackQueue
