import FeedbackQueue.Failure

/-!
# Chains of slots

The slots of a table are threaded on first-in first-out chains.  A `Chain` records its first slot,
its last slot and its length; the links between the slots of all chains are kept in one `Links`
vector, so a slot is on one chain at a time and an operation on a chain changes nothing but links.

Nothing here relies on the links being in order: walks take at most as many steps as there are
slots, and a slot that does not exist is a fault where it is used.

## Main definitions

* `Chain.walk` : the slots of a chain, first to last.
* `Chain.push`, `Chain.pop`, `Chain.remove` : append, take the first, unlink from anywhere.
* `Chain.upTo` : the chain of all slots in order.
-/

namespace FeedbackQueue

/-- For every slot the slot that follows it on its chain. -/
abbrev Links (n : Nat) := Vector (Option Slot) n

namespace Links

variable {n : Nat}

/-- The slot that follows `i`. -/
def next (links : Links n) (i : Slot) : Except Fault (Option Slot) :=
  match links[i]? with
  | some follower => .ok follower
  | none => .error .indexOutOfRange

/-- The links with `follower` after `i`. -/
def assign (links : Links n) (i : Slot) (follower : Option Slot) : Except Fault (Links n) :=
  if h : i < n then .ok (links.set i follower h) else .error .indexOutOfRange

/-- At most `k` slots from `start` on. -/
def follow (links : Links n) : (k : Nat) → (start : Option Slot) → List Slot
  | 0, _ => []
  | _ + 1, none => []
  | k + 1, some i => i :: follow links k links[i]?.join

theorem length_follow_le (links : Links n) (k : Nat) (start : Option Slot) :
    (links.follow k start).length ≤ k := by
  induction k generalizing start with
  | zero => exact Nat.le_refl 0
  | succ k ih =>
    cases start with
    | none => exact Nat.zero_le _
    | some i => exact Nat.succ_le_succ (ih _)

/-- The slot before `i` among at most `k` slots from `start` on, where `before` precedes `start`:
`none` when `i` is not among them, `some none` when `i` comes first. -/
def seek (links : Links n) (i : Slot) :
    (k : Nat) → (before start : Option Slot) → Except Fault (Option (Option Slot))
  | 0, _, _ => .ok none
  | _ + 1, _, none => .ok none
  | k + 1, before, some node =>
    if node = i then .ok (some before)
    else do seek links i k (some node) (← links.next node)

end Links

/-- A first-in first-out chain of slots. -/
structure Chain where
  /-- First slot. -/
  head : Option Slot := none
  /-- Last slot. -/
  tail : Option Slot := none
  /-- Number of slots. -/
  len : Nat := 0
  deriving DecidableEq, Repr

namespace Chain

variable {n : Nat}

/-- Whether no slot is first. -/
def isEmpty (c : Chain) : Bool := c.head.isNone

/-- The slots of a chain, first to last. -/
def walk (c : Chain) (links : Links n) : List Slot := links.follow n c.head

/-- Whether a slot is on a chain. -/
def contains (c : Chain) (links : Links n) (i : Slot) : Bool := (c.walk links).contains i

/-- Append a slot that is on no chain. -/
def push (c : Chain) (links : Links n) (i : Slot) : Except Fault (Chain × Links n) := do
  let links ← links.assign i none
  match c.tail with
  | some last =>
    let links ← links.assign last (some i)
    return ({ c with tail := some i, len := c.len + 1 }, links)
  | none => return ({ head := some i, tail := some i, len := c.len + 1 }, links)

/-- Take the first slot off a chain. -/
def pop (c : Chain) (links : Links n) : Except Fault (Option (Slot × Chain × Links n)) := do
  match c.head with
  | none => return none
  | some i =>
    let head ← links.next i
    let links ← links.assign i none
    let len ← decrement c.len
    return some (i, { head, tail := if head.isNone then none else c.tail, len }, links)

/-- Unlink a slot from anywhere on a chain; `none` when it is not on it. -/
def remove (c : Chain) (links : Links n) (i : Slot) : Except Fault (Option (Chain × Links n)) := do
  match ← links.seek i n none c.head with
  | none => return none
  | some before =>
    let follower ← links.next i
    let links ← links.assign i none
    let tail := if c.tail = some i then before else c.tail
    match before with
    | some j =>
      let links ← links.assign j follower
      let len ← decrement c.len
      return some ({ c with tail, len }, links)
    | none =>
      let len ← decrement c.len
      return some ({ head := follower, tail, len }, links)

/-- The links of the chain `0, 1, …, n - 1`. -/
def linksUpTo (n : Nat) : Links n :=
  Vector.ofFn fun i => if i.val + 1 < n then some (i.val + 1) else none

/-- The chain `0, 1, …, n - 1`. -/
def upTo (n : Nat) : Chain :=
  if n = 0 then {} else { head := some 0, tail := some (n - 1), len := n }

example : (upTo 4).walk (linksUpTo 4) = [0, 1, 2, 3] := by decide

end Chain

end FeedbackQueue
