import FeedbackQueue.Machine.Run

/-!
# Requests that are left alone

While a call of a request is open anything may happen to the table.  A request is *left alone* when
nothing does: each of its calls is answered, in whatever way and at whatever reading of the clock,
and the request goes on with the table that it has left behind.

`Alone` is a total notion: a request for which it holds has an end whatever the answers are, be it
an outcome or a fault.

## Main definitions

* `Reply` : a call with its answer.
* `Alone` : what a request that is left alone comes to.
-/

namespace FeedbackQueue

variable {P : Params}

/-- A call, its answer, and the reading of the clock at which the request goes on. -/
structure Reply where
  call : Call
  answer : call.Answer
  now : Nat

/-- The end of a request: its outcome with the table, or a fault. -/
abbrev Ending (P : Params) := Except Fault (Outcome × Table P)

/-- After some replies a request that is left alone has come to the end of a stretch.  Whatever
replies follow, it ends, and `Q` holds of all replies and of its end. -/
inductive Alone (Q : List Reply → Ending P → Prop) : (replies : List Reply) → Stretch P → Prop
  /-- It has ended. -/
  | returned {replies : List Reply} {outcome : Outcome} {t : Table P} :
      Q replies (.ok (outcome, t)) → Alone Q replies (.ok (.returned outcome, t))
  /-- It has ended in a fault. -/
  | fault {replies : List Reply} {f : Fault} : Q replies (.error f) → Alone Q replies (.error f)
  /-- It goes on with every answer. -/
  | waiting {replies : List Reply} {s : Suspension} {t : Table P} :
      (∀ (answer : s.call.Answer) (clock : Clock),
        Alone Q (replies ++ [⟨s.call, answer, clock.now⟩]) (s.resume clock t answer)) →
      Alone Q replies (.ok (.waiting s, t))

namespace Alone

variable {Q Q' : List Reply → Ending P → Prop} {replies : List Reply} {r : Stretch P}

theorem mono (h : Alone Q replies r) (hQ : ∀ replies ending, Q replies ending → Q' replies ending) :
    Alone Q' replies r := by
  induction h with
  | returned h => exact .returned (hQ _ _ h)
  | fault h => exact .fault (hQ _ _ h)
  | waiting _ ih => exact .waiting ih

end Alone

end FeedbackQueue
