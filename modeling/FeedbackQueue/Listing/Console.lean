import FeedbackQueue.Listing.Text

/-!
# Printing

The listings as programs that print, write by write.  A `Printer` offers one character after the
other to a `Sink`.  A sink that has refused a character refuses all that come later; the write of
that character fails, and with it whatever the write is a part of.  What is to be printed is
computed when its turn comes.

## Main definitions

* `Sink`, `Printer` : where characters go, and programs that offer them.
* `Printer.text`, `Printer.seconds`, `Printer.chain` : the parts of a listing.
* `Table.printProcesses`, `Table.printChains` : the listings.
-/

namespace FeedbackQueue

/-! ### Sinks -/

/-- Why a write fails. -/
inductive WriteError where
  /-- A character was refused. -/
  | refused
  deriving DecidableEq, Repr

/-- Where characters go. -/
structure Sink where
  /-- The number of bytes that still fit, if there is a limit. -/
  room : Option Nat
  /-- What has been taken so far. -/
  taken : List Char := []
  /-- What has been refused so far. -/
  refused : List Char := []
  deriving DecidableEq, Repr

/-- Whether a sink takes a character: it fits, and nothing has been refused before. -/
def Sink.Takes (s : Sink) (c : Char) : Prop := s.refused = [] ∧ ∀ room ∈ s.room, c.utf8Size ≤ room

instance (s : Sink) (c : Char) : Decidable (s.Takes c) := inferInstanceAs (Decidable (_ ∧ _))

/-- Offer a character to a sink. -/
def Sink.offer (s : Sink) (c : Char) : Except WriteError Unit × Sink :=
  if s.Takes c then
    (.ok (), { s with room := s.room.map (· - c.utf8Size), taken := s.taken ++ [c] })
  else (.error .refused, { s with refused := s.refused ++ [c] })

/-! ### Printers -/

/-- A program that prints.  It may fault, and it may end early because a write has failed. -/
abbrev Printer := ExceptT WriteError (StateT Sink (Except Fault))

namespace Printer

/-- Run a program on a sink. -/
def on {α : Type} (p : Printer α) (s : Sink) : Except Fault (Except WriteError α × Sink) :=
  p.run.run s

/-- What has come of a program on a sink. -/
def output (p : Printer Unit) (s : Sink) : Except Fault Written := do
  let (result, s) ← p.on s
  return { text := String.ofList s.taken, complete := result.isOk }

/-- Compute a value on the way. -/
def compute {α : Type} (r : Except Fault α) : Printer α := liftM (m := StateT Sink (Except Fault)) r

/-- Print a character. -/
def char (c : Char) : Printer Unit := ExceptT.mk fun s => .ok (s.offer c)

/-- Print a text. -/
def text (s : String) : Printer Unit := forM s.toList char

/-- Print a character some times. -/
def pad (c : Char) (n : Nat) : Printer Unit := forM (List.replicate n c) char

/-- Print a text, and blanks up to `width` characters. -/
def padded (width : Nat) (s : String) : Printer Unit := do
  text s
  pad ' ' (width - s.length)

/-- Print a number of ticks as seconds with three decimals. -/
def seconds (ticks : Nat) : Printer Unit := do
  let millis := toString (ticks % ticksPerSecond * 1000 / ticksPerSecond)
  text (toString (ticks / ticksPerSecond))
  text "."
  pad '0' (3 - millis.length)
  text millis

/-- Print two numbers in parentheses. -/
def pair (a : Nat) (b : Int) : Printer Unit := do
  text "("
  text (toString a)
  text ","
  text (toString b)
  text ")"

/-- Print an item, with an arrow in front of it unless it is the first.  The item is computed before
the arrow is printed. -/
def link {α : Type} (item : α → Except Fault (Printer Unit)) (x : α × Nat) : Printer Unit := do
  let printItem ← compute (item x.1)
  (if 0 < x.2 then text "->" else pure ())
  printItem

/-- Print items with arrows between them. -/
def chain {α : Type} (item : α → Except Fault (Printer Unit)) (xs : List α) : Printer Unit :=
  forM xs.zipIdx (link item)

/-- Print something only if it is selected. -/
def when (selected : Bool) (p : Printer Unit) : Printer Unit := if selected then p else pure ()

end Printer

open Printer

/-- Print the line of a process. -/
def Summary.print (s : Summary) : Printer Unit := do
  text (toString s.pid)
  text "\t"
  padded 12 s.name
  text " "
  text (toString s.uid)
  text "\t"
  text (toString s.gid)
  text "\t"
  text (toString s.parentPid)
  text "\t"
  text (toString s.priority)
  text "\t"
  seconds s.elapsed
  text "\t"
  seconds s.cpuTicks
  text "\t"
  text s.stage.label
  text "\t"
  text (toString s.size)
  text "\n"

namespace Table

variable {P : Params}

/-- Print all processes, or the notice while the table is held. -/
def printProcesses (t : Table P) (now : Nat) (held : Bool) : Printer Unit :=
  if held then text "process table busy\n"
  else do
    text "\nPID\tName         UID\tGID\tPPID\tPrio\tElapsed\tCPU\tState\tSize\n"
    forM (t.procs.toList.filter Process.isLive) fun p => do
      let s ← compute (t.summary now p)
      s.print

/-- Print one ready level. -/
def printLevel (t : Table P) (level : Nat) (c : Chain) : Printer Unit := do
  text (toString level)
  text ": "
  chain (fun i => do let p ← t.process i; return pair p.pid p.budget) (c.walk t.links)
  text "\n"

/-- Print the ready levels from the highest down. -/
def printReady (t : Table P) : Printer Unit := do
  text "Ready List Processes:\n"
  forM t.ready.toList.zipIdx.reverse fun (c, level) => t.printLevel level c

/-- Print the number of free slots. -/
def printFree (t : Table P) : Printer Unit := do
  text "Free List Size: "
  text (toString t.unused.len)
  text " processes\n"

/-- Print the sleeping processes. -/
def printSleeping (t : Table P) : Printer Unit := do
  text "Sleeping List Processes:\n"
  chain (fun i => return text (toString (← t.process i).pid)) (t.sleeping.walk t.links)
  text "\n"

/-- Print the exited processes with their parents. -/
def printZombie (t : Table P) : Printer Unit := do
  text "Zombie List Processes:\n"
  chain (fun i => do let p ← t.process i; return pair p.pid (← t.parentPid p))
    (t.zombie.walk t.links)
  text "\n"

/-- Print the selected chains. -/
def printChains (t : Table P) (which : Selection) : Printer Unit := do
  when which.ready t.printReady
  when which.free t.printFree
  when which.sleeping t.printSleeping
  when which.zombie t.printZombie

end Table

end FeedbackQueue
