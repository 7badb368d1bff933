import FeedbackQueue.Table.Basic

/-!
# Auditing a table

A table is in order when every slot is on exactly one chain, its home, every chain ends where and
after as many slots as it records, no priority is above the top level, and the CPU markers name
distinct slots, all running slots among them.  `Table.audit` walks the chains, the slots and the
markers, and reports the first defect.  It trusts nothing: any links, lengths and markers do.

## Main definitions

* `Table.audit` : the first defect of a table, if there is one.
* `Table.audited` : the table, or a fault that names its defect.
* `Table.settle` : the same where the parameters ask for audits, and the table itself elsewhere.
-/

namespace FeedbackQueue

namespace Table

variable {P : Params}

/-- For every slot the place where a walk has met it. -/
abbrev Seen (P : Params) := Vector (Option Place) P.capacity

/-- Note that a walk of `place` meets `i`: a slot that exists, is new, and is at home there. -/
def auditSlot (t : Table P) (place : Place) (seen : Seen P) (i : Slot) : Except Defect (Seen P) :=
  if h : i < P.capacity then
    match seen[i] with
    | some first => .error (.duplicate i first place)
    | none =>
      if t.procs[i].home = place then .ok (seen.set i (some place) h)
      else .error (.wrongPlace i t.procs[i].stage place)
  else .error (.badIndex place i)

/-- Walk one chain; the walk has to agree with the recorded length and tail, and has to end. -/
def auditChain (t : Table P) (seen : Seen P) (place : Place) (c : Chain) :
    Except Defect (Seen P) := do
  let walked := c.walk t.links
  let seen ← walked.foldlM (t.auditSlot place) seen
  if walked.length ≠ c.len then throw (.lengthMismatch place c.len walked.length)
  if c.tail ≠ walked.getLast? then throw (.badTail place)
  match walked.getLast? with
  | some last => if (t.links[last]?.join).isSome then throw (.unterminated place)
  | none => pure ()
  return seen

/-- The chains of a table with their places. -/
def chains (t : Table P) : List (Place × Chain) :=
  (places P).filterMap fun place => (t.chain? place).map (place, ·)

/-- Every slot has been met, and no priority is above the top level. -/
def auditRecord (t : Table P) (seen : Seen P) (i : Fin P.capacity) : Except Defect Unit := do
  if seen[i].isNone then throw (.missing i)
  if P.maxPriority < t.procs[i].priority then throw (.badPriority i t.procs[i].priority)

/-- A marker names a slot that exists and that no earlier marker names. -/
def auditMarker (t : Table P) (cpu : Cpu) : Except Defect Unit :=
  match t.occupant? cpu with
  | none => .ok ()
  | some i =>
    if i < P.capacity then
      match (t.markers.toList.take cpu).findIdx? fun marker => marker = some i with
      | some first => .error (.sharedSlot i first cpu)
      | none => .ok ()
    else .error (.badIndex (.stage .running) i)

/-- The first defect of a table. -/
def audit (t : Table P) : Except Defect Unit := do
  let seen ← t.chains.foldlM (fun seen (place, c) => t.auditChain seen place c)
    (Vector.replicate P.capacity none)
  (List.finRange P.capacity).forM (t.auditRecord seen)
  let total := t.chains.foldr (fun (_, c) n => (c.walk t.links).length + n) 0
  if total ≠ P.capacity then throw (.countMismatch total P.capacity)
  (List.range P.cpus).forM t.auditMarker
  (t.members .running).forM fun i => do
    unless t.isMarked i do throw (.unscheduled i)

/-- The table, if it has no defect. -/
def audited (t : Table P) : Except Fault (Table P) :=
  match t.audit with
  | .ok () => .ok t
  | .error defect => .error (.inconsistent defect)

/-- The table after a change: audited where the parameters ask for it. -/
def settle (t : Table P) : Except Fault (Table P) := if P.audited then t.audited else .ok t

end Table

end FeedbackQueue
