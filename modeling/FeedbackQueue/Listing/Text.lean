import FeedbackQueue.Listing.Summary
import FeedbackQueue.Listing.Written

/-!
# Listings on a console

Two listings of a table: all processes, one a line (`Table.processList`), and the chains of a
selection (`Table.chainList`).  Both are lists of pieces; `Table.dump` and `Table.dumpChains` write
them under a limit.
-/

namespace FeedbackQueue

/-- A number of ticks as seconds with three decimals. -/
def secondsText (ticks : Nat) : String :=
  let millis := toString (ticks % ticksPerSecond * 1000 / ticksPerSecond)
  toString (ticks / ticksPerSecond) ++ "." ++ "".pushn '0' (3 - millis.length) ++ millis

/-- A text followed by blanks up to `width` characters. -/
def padTo (width : Nat) (text : String) : String := text.pushn ' ' (width - text.length)

/-- Pieces with arrows between them. -/
def arrows : List Piece → List Piece
  | [] => []
  | first :: rest => first :: rest.map fun piece => return "->" ++ (← piece)

/-- Two numbers in parentheses. -/
def pairText (a : Nat) (b : Int) : String := s!"({a},{b})"

/-- The line of a process in a listing. -/
def Summary.line (s : Summary) : String :=
  "\t".intercalate
    [toString s.pid, padTo 12 s.name ++ " " ++ toString s.uid, toString s.gid,
      toString s.parentPid, toString s.priority, secondsText s.elapsed, secondsText s.cpuTicks,
      s.stage.label, toString s.size] ++ "\n"

/-- The chains that a listing shows. -/
structure Selection where
  /-- The ready levels, with budgets. -/
  ready : Bool := false
  /-- The number of free slots. -/
  free : Bool := false
  /-- The sleeping processes. -/
  sleeping : Bool := false
  /-- The exited processes, with their parents. -/
  zombie : Bool := false
  deriving DecidableEq, Repr

/-- The selection of the low four bits of a number. -/
def Selection.ofBits (bits : Nat) : Selection where
  ready := bits.testBit 0
  free := bits.testBit 1
  sleeping := bits.testBit 2
  zombie := bits.testBit 3

namespace Table

variable {P : Params}

/-- The listing of all processes at `now`. -/
def processList (t : Table P) (now : Nat) : List Piece :=
  .ok "\nPID\tName         UID\tGID\tPPID\tPrio\tElapsed\tCPU\tState\tSize\n" ::
    (t.procs.toList.filter Process.isLive).map fun p => return (← t.summary now p).line

/-- The notice in place of a listing while the table is held by another operation. -/
def busyNotice : List Piece := [.ok "process table busy\n"]

/-- One ready level with pids and budgets. -/
def levelLine (t : Table P) (level : Nat) (c : Chain) : List Piece :=
  let item (i : Slot) : Piece := do
    let p ← t.process i
    return pairText p.pid p.budget
  .ok s!"{level}: " :: arrows ((c.walk t.links).map item) ++ [.ok "\n"]

/-- The ready levels from the highest down. -/
def readyLines (t : Table P) : List Piece :=
  .ok "Ready List Processes:\n" ::
    t.ready.toList.zipIdx.reverse.flatMap fun (c, level) => t.levelLine level c

/-- The number of free slots. -/
def freeLine (t : Table P) : List Piece :=
  [.ok s!"Free List Size: {t.unused.len} processes\n"]

/-- The pids of the sleeping processes. -/
def sleepingLines (t : Table P) : List Piece :=
  let item (i : Slot) : Piece := return toString (← t.process i).pid
  .ok "Sleeping List Processes:\n" :: arrows ((t.sleeping.walk t.links).map item) ++ [.ok "\n"]

/-- The pids of the exited processes with those of their parents. -/
def zombieLines (t : Table P) : List Piece :=
  let item (i : Slot) : Piece := do
    let p ← t.process i
    return pairText p.pid (← t.parentPid p)
  .ok "Zombie List Processes:\n" :: arrows ((t.zombie.walk t.links).map item) ++ [.ok "\n"]

/-- The listing of the selected chains. -/
def chainList (t : Table P) (which : Selection) : List Piece :=
  (if which.ready then t.readyLines else []) ++ (if which.free then t.freeLine else []) ++
    (if which.sleeping then t.sleepingLines else []) ++
    if which.zombie then t.zombieLines else []

/-- Write the listing of all processes, or the notice while the table is held. -/
def dump (t : Table P) (now : Nat) (held : Bool) (limit : Option Nat) : Except Fault Written :=
  Written.under limit (if held then busyNotice else t.processList now)

/-- Write the listing of the selected chains. -/
def dumpChains (t : Table P) (which : Selection) (limit : Option Nat) : Except Fault Written :=
  Written.under limit (t.chainList which)

end Table

end FeedbackQueue
