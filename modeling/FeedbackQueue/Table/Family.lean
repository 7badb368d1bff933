import FeedbackQueue.Table.Blocking

/-!
# Birth, death and family

A process is built in a slot that only its maker uses (`conceive`, then `crown` for the root
process or `launch` for a child, or `discard`).  When it exits it becomes a zombie, and its
children go to the root process (`retire`).  Its parent reaps it (`Scan.reaped`) once no CPU is
marked with it.

What belongs to the surrounding machine (stacks, address spaces, files) is only recorded here: each
function hands out what its caller has to free or close.
-/

namespace FeedbackQueue

/-- What a child takes over from its parent. -/
structure Blueprint where
  /-- Slot of the parent. -/
  parent : Slot
  /-- Address space to copy. -/
  space : Option AddressSpace
  /-- Bytes of the address space. -/
  size : Nat
  /-- Owner. -/
  uid : Nat
  /-- Group. -/
  gid : Nat
  /-- Name. -/
  name : String
  /-- Files to duplicate. -/
  files : List FileHandle
  /-- Working directory to duplicate. -/
  cwd : Option FileHandle
  deriving DecidableEq, Repr

/-- What is left of a reaped process. -/
structure Remains where
  /-- Its pid. -/
  pid : Pid
  /-- The stack to free. -/
  stack : Option KernelStack
  /-- The address space to free. -/
  space : Option AddressSpace
  deriving DecidableEq, Repr

/-- What a parent finds when it looks for an exited child. -/
inductive Scan (P : Params) where
  /-- The first child that can be reaped, and the table without it. -/
  | reaped (remains : Remains) (t : Table P)
  /-- There are children, but none can be reaped yet. -/
  | pending
  /-- There are no children, or the parent has been killed. -/
  | noChildren
  deriving DecidableEq

namespace Table

variable {P : Params}

/-! ### Birth -/

/-- Take the first free slot and give it a pid; `none` when no slot is free. -/
def conceive (t : Table P) (now : Nat) : Except Fault (Option (Slot × Table P)) := do
  match t.unused.head with
  | none => return none
  | some i =>
    let t ← t.unlist i .unused
    let (pid, t) ← t.takePid
    let t ← t.revise i fun p =>
      { p with
        pid, stage := .embryo, priority := P.maxPriority, budget := P.budget, startedAt := now
        cpuTicks := 0, dispatchedAt := 0, parent := none, killed := false, channel := none }
    let t ← t.enlist i
    return some (i, ← t.settle)

/-- Give a slot its kernel stack. -/
def giveStack (t : Table P) (i : Slot) (stack : KernelStack) : Except Fault (Table P) :=
  t.revise i fun p => { p with stack := some stack }

/-- Free the slot of a process that is still being built. -/
def discard (t : Table P) (i : Slot) : Except Fault (Table P) := do
  let t ← t.revise i Process.forget
  let t ← t.move i .embryo .unused
  t.settle

/-- `discard` for a process that may have its stack, which comes back. -/
def abandon (t : Table P) (i : Slot) : Except Fault (Option KernelStack × Table P) := do
  let stack := (← t.process i).stack
  let t ← t.revise i fun p => { p with stack := none }
  return (stack, ← t.discard i)

/-- Make a process that is being built the root process, and start it. -/
def crown (t : Table P) (i : Slot) (name : String) (space : AddressSpace) :
    Except Fault (Pid × Table P) := do
  if t.root.isSome then throw .rootExists
  let t ← t.revise i fun p =>
    { p.rename name with space := some space, size := pageSize, uid := rootUid, gid := rootGid }
  let pid := (← t.process i).pid
  let t ← move { t with root := some i } i .embryo .runnable
  return (pid, ← t.settle)

/-- What a child of the process on a CPU takes over. -/
def blueprint (t : Table P) (cpu : Cpu) : Except Fault Blueprint := do
  let i ← t.occupant cpu
  let p ← t.process i
  return {
    parent := i, space := p.space, size := p.size, uid := p.uid, gid := p.gid, name := p.name
    files := p.files, cwd := p.cwd }

/-- Make a process that is being built a child of the blueprint's parent, and start it. -/
def launch (t : Table P) (i : Slot) (plan : Blueprint) (space : AddressSpace)
    (files : List FileHandle) (cwd : Option FileHandle) : Except Fault (Pid × Table P) := do
  let t ← t.revise i fun p =>
    { p with
      space := some space, size := plan.size, uid := plan.uid, gid := plan.gid, name := plan.name
      files, cwd, parent := some plan.parent, callResult := 0 }
  let pid := (← t.process i).pid
  let t ← t.move i .embryo .runnable
  return (pid, ← t.settle)

/-! ### Death -/

/-- Take the files of the process on a CPU, which is not the root process, the working directory
last. -/
def surrenderFiles (t : Table P) (cpu : Cpu) : Except Fault (List FileHandle × Table P) := do
  let i ← t.occupant cpu
  if t.root = some i then throw .rootExits
  let p ← t.process i
  let t ← t.revise i fun p => { p with files := [], cwd := none }
  return (p.files ++ p.cwd.toList, t)

/-- Give a slot, met in a stage, to the root process if it is a child of `i`.  An exited child
wakes the root process. -/
def adopt (i : Slot) (rootPid : Option Pid) (stage : Stage) (t : Table P) (child : Slot) :
    Except Fault (Table P) := do
  if (← t.process child).parent ≠ some i then return t
  let t ← t.revise child fun p => { p with parent := t.root }
  match stage, rootPid with
  | .zombie, some pid => return (← t.wake (.process pid)).2
  | _, _ => return t

/-- Give the children of `i` to the root process. -/
def adoptChildren (t : Table P) (i : Slot) : Except Fault (Table P) := do
  let rootPid ← t.root.mapM fun r => return (← t.process r).pid
  searched.foldlM (fun t stage => (t.members stage).foldlM (adopt i rootPid stage) t) t

/-- The process on a CPU exits at `now`, and switches away. -/
def retire (t : Table P) (cpu : Cpu) (now : Nat) : Except Fault (Table P) := do
  let i ← t.occupant cpu
  let t ← t.wakeParent (← t.process i)
  let t ← t.adoptChildren i
  let t ← t.move i .running .zombie
  let t ← t.revise i fun p => { p with size := 0 }
  t.depart cpu now

/-! ### Reaping -/

/-- Free the slot of an exited process. -/
def reap (t : Table P) (i : Slot) : Except Fault (Remains × Table P) := do
  let p ← t.process i
  let t ← t.revise i fun p => { p with stack := none, space := none }.forget
  let t ← t.move i .zombie .unused
  return ({ pid := p.pid, stack := p.stack, space := p.space }, t)

/-- Whether a slot is a child of `me`. -/
def isChild (t : Table P) (me i : Slot) : Except Fault Bool :=
  return (← t.process i).parent = some me

/-- Stages of children that have not exited. -/
def unexited : List Stage := [.running, .runnable, .sleeping, .embryo]

/-- The process on a CPU looks for an exited child.  A child still marked on a CPU counts, but is
not reaped yet. -/
def scan (t : Table P) (cpu : Cpu) : Except Fault (Scan P) := do
  let me ← t.occupant cpu
  let zombies := t.members .zombie
  match ← zombies.findM? fun i => return (← t.isChild me i) && !t.isMarked i with
  | some i =>
    let (remains, t) ← t.reap i
    return .reaped remains t
  | none =>
    let hasChild ← zombies.anyM (t.isChild me)
    let hasChild ← if hasChild then pure true
      else unexited.anyM fun stage => (t.members stage).anyM (t.isChild me)
    if !hasChild then return .noChildren
    -- A killed parent reaps what it can, but it does not wait.
    if (← t.process me).killed then return .noChildren
    return .pending

end Table

end FeedbackQueue
