import FeedbackQueue.Failure

/-!
# Writing under a limit

A text is written piece by piece on something that may have room for a number of bytes only.  The
first character that does not fit is refused, and nothing is written after it.  A piece is computed
when its turn comes, so a fault in a piece is met only if all pieces before it fit.
-/

namespace FeedbackQueue

/-- A piece of a text, or the fault met in computing it. -/
abbrev Piece := Except Fault String

/-- What came of writing a text. -/
structure Written where
  /-- The characters that were written. -/
  text : String
  /-- Whether they are the whole text. -/
  complete : Bool
  deriving DecidableEq, Repr

namespace Written

/-- Write a text where there is room for `room` bytes. -/
def within (room : Nat) : List Piece → Except Fault Written
  | [] => .ok { text := "", complete := true }
  | piece :: rest => do
    let text ← piece
    if text.utf8ByteSize ≤ room then
      let written ← within (room - text.utf8ByteSize) rest
      return { written with text := text ++ written.text }
    else return { text := String.ofList (clip room text.toList), complete := false }

/-- Write a text where there is room for all of it. -/
def whole (pieces : List Piece) : Except Fault Written := do
  let texts ← pieces.mapM id
  return { text := String.join texts, complete := true }

/-- Write a text under a limit, if there is one. -/
def under (limit : Option Nat) (pieces : List Piece) : Except Fault Written :=
  match limit with
  | some room => within room pieces
  | none => whole pieces

end Written

end FeedbackQueue
