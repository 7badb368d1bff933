import FeedbackQueue.Process

/-!
# Calls of the surrounding machine

An operation on a table asks the machine around it for memory, files and context switches.  A
`Call` is one such question and `Call.Answer` the type of its answer.  While a call is open nothing
else is known of the table: any other operation may run before the answer comes.
-/

namespace FeedbackQueue

/-- A call of the surrounding machine. -/
inductive Call where
  /-- Allocate a kernel stack. -/
  | allocStack
  /-- Free a kernel stack. -/
  | freeStack (stack : KernelStack)
  /-- Build the address space of the root process from its image. -/
  | mapImage (image : List UInt8)
  /-- Copy the first bytes of an address space. -/
  | copySpace (source : AddressSpace) (size : Nat)
  /-- Free an address space. -/
  | freeSpace (space : AddressSpace)
  /-- Take another reference to a file. -/
  | duplicate (file : FileHandle)
  /-- Drop a reference to a file. -/
  | close (file : FileHandle)
  /-- On a CPU that dispatched: run the process of the handoff until it switches away. -/
  | run (cpu : Cpu) (handoff : Handoff)
  /-- On a CPU whose process has departed: go back to its dispatcher until the process runs
  again. -/
  | switch (cpu : Cpu)
  /-- Enable interrupts on a CPU. -/
  | enableInterrupts (cpu : Cpu)
  /-- Halt a CPU until an interrupt. -/
  | awaitInterrupt (cpu : Cpu)
  deriving DecidableEq, Repr

/-- What the machine answers: an allocation may fail, a run gives a handoff back, and a switch ends
on the CPU on which the process runs again. -/
@[reducible] def Call.Answer : Call → Type
  | allocStack => Option KernelStack
  | mapImage _ => Option AddressSpace
  | copySpace _ _ => Option AddressSpace
  | duplicate _ => FileHandle
  | run _ _ => Handoff
  | switch _ => Cpu
  | freeStack _ | freeSpace _ | close _ | enableInterrupts _ | awaitInterrupt _ => Unit

end FeedbackQueue
