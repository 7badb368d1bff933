/-!
# Machine words

Slots, pids, tick counts and sizes are natural numbers, and budgets are integers.  The word that
holds a value limits it at the place where the value is computed: a sum that does not fit is
refused, and signed arithmetic either wraps or stops at the end of its range.

## Main definitions

* `word32`, `word64` : the number of values of an unsigned word.
* `sign64` : the first value of a 64-bit word that stands for a negative number.
* `signed64` : the signed reading of 64 bits.
* `clamp64` : the nearest value that a signed 64-bit word holds.
-/

namespace FeedbackQueue

/-- The number of values of a 32-bit word, two to the 32nd. -/
def word32 : Nat := 0x100000000

/-- The number of values of a 64-bit word, two to the 64th. -/
def word64 : Nat := 0x10000000000000000

/-- Half of `word64`. -/
def sign64 : Nat := 0x8000000000000000

/-- The signed reading of a 64-bit word: values from `sign64` on stand for negative numbers. -/
def signed64 (n : Nat) : Int := Int.bmod n word64

/-- The value nearest to `i` that a signed 64-bit word holds. -/
def clamp64 (i : Int) : Int := max (-sign64) (min i (sign64 - 1))

/-- A word below `sign64` reads as itself. -/
theorem signed64_of_lt {n : Nat} (h : n < sign64) : signed64 n = n := by
  simp only [signed64, word64, sign64, Int.bmod] at *
  omega

/-- A value that fits is not changed. -/
theorem clamp64_of_fits {i : Int} (lower : -sign64 ≤ i) (upper : i < sign64) : clamp64 i = i := by
  simp only [clamp64]
  omega

example : signed64 300 = 300 ∧ signed64 sign64 = -sign64 ∧ signed64 (word64 - 1) = -1 := by
  decide

example : clamp64 sign64 = sign64 - 1 ∧ clamp64 (-sign64 - 1) = -sign64 ∧ clamp64 7 = 7 := by
  decide

end FeedbackQueue
