import FeedbackQueue.Failure

/-!
# Setting a name

A name is cut off at `nameLimit` bytes, or before, so that no character is split: the cut is
searched for from the limit down, byte by byte.  `Process.rename` says what comes of it.
-/

namespace FeedbackQueue

/-- The last place in a text, from byte `k` down, at which a character begins or the text ends.  A
search that went on below zero would fault. -/
def boundary (text : String) : (k : Nat) → Except Fault Nat
  | 0 => if String.Pos.Raw.isValid text ⟨0⟩ then .ok 0 else .error .overflow
  | k + 1 => if String.Pos.Raw.isValid text ⟨k + 1⟩ then .ok (k + 1) else boundary text k

/-- The first `k` bytes of a text.  To split a character is a fault. -/
def cutAt (text : String) (k : Nat) : Except Fault String :=
  if h : String.Pos.Raw.IsValid text ⟨k⟩ then
    .ok (.ofByteArray (text.toByteArray.extract 0 k) h.isValidUTF8_extract_zero)
  else .error .indexOutOfRange

/-- The record once its name has been set. -/
def Process.setName (p : Process) (name : String) : Except Fault Process := do
  let k ← boundary name (min name.utf8ByteSize nameLimit)
  return { p with name := ← cutAt name k }

end FeedbackQueue
