import FeedbackQueue.Process

/-!
# Texts that are cut off

Where there is room for some bytes only, the longest part of a text that consists of whole
characters and fits is kept.  `clip` computes it.

## Main definitions

* `Truncates` : a text is the longest part of another that fits.

## Main statements

* `truncates_clip`, `Truncates.unique` : there is one such part, and `clip` finds it.
-/

namespace FeedbackQueue

/-- The first text is the longest one that is at the start of the second, in whole characters, and
has at most `limit` bytes. -/
structure Truncates (limit : Nat) (part text : String) : Prop where
  /-- It is at the start. -/
  leads : part.toList <+: text.toList
  /-- It fits. -/
  fits : part.utf8ByteSize ≤ limit
  /-- No longer one fits. -/
  longest : ∀ other : String, other.toList <+: text.toList → other.utf8ByteSize ≤ limit →
    other.toList <+: part.toList

variable {limit : Nat} {part part' text : String} {c : Char} {cs xs ys : List Char}

/-- There is only one. -/
theorem Truncates.unique (h : Truncates limit part text) (h' : Truncates limit part' text) :
    part = part' := by
  have hle := h'.longest part h.leads h.fits
  have hge := h.longest part' h'.leads h'.fits
  exact String.toList_injective (hle.eq_of_length (Nat.le_antisymm hle.length_le hge.length_le))

/-! ### Clipping -/

theorem utf8ByteSize_ofList_cons :
    (String.ofList (c :: cs)).utf8ByteSize = c.utf8Size + (String.ofList cs).utf8ByteSize := by
  rw [String.ofList_cons, String.utf8ByteSize_append, String.utf8ByteSize_singleton]

theorem clip_of_le (h : c.utf8Size ≤ limit) :
    clip limit (c :: cs) = c :: clip (limit - c.utf8Size) cs := if_pos h

theorem clip_of_lt (h : limit < c.utf8Size) : clip limit (c :: cs) = [] :=
  if_neg (Nat.not_le.2 h)

theorem utf8ByteSize_clip_le (limit : Nat) (cs : List Char) :
    (String.ofList (clip limit cs)).utf8ByteSize ≤ limit := by
  induction cs generalizing limit with
  | nil => simp [clip]
  | cons c cs ih =>
    by_cases hc : c.utf8Size ≤ limit
    · have htail := ih (limit - c.utf8Size)
      rw [clip_of_le hc, utf8ByteSize_ofList_cons]
      omega
    · rw [clip_of_lt (Nat.lt_of_not_le hc)]
      simp

/-- What is at the start and fits is kept. -/
theorem prefix_clip (hxs : xs <+: cs) (h : (String.ofList xs).utf8ByteSize ≤ limit) :
    xs <+: clip limit cs := by
  induction cs generalizing limit xs with
  | nil => exact hxs
  | cons c cs ih =>
    cases xs with
    | nil => exact List.nil_prefix
    | cons d xs =>
      obtain ⟨rfl, htail⟩ := List.cons_prefix_cons.1 hxs
      rw [utf8ByteSize_ofList_cons] at h
      rw [clip_of_le (Nat.le_trans (Nat.le_add_right _ _) h)]
      exact List.cons_prefix_cons.2 ⟨rfl, ih htail (Nat.le_sub_of_add_le' h)⟩

/-- **Clipping keeps the longest part that fits.** -/
theorem truncates_clip (limit : Nat) (text : String) :
    Truncates limit (String.ofList (clip limit text.toList)) text where
  leads := by
    rw [String.toList_ofList]
    exact clip_prefix limit text.toList
  fits := utf8ByteSize_clip_le limit text.toList
  longest other hother hfits := by
    rw [String.toList_ofList]
    exact prefix_clip hother (by rwa [String.ofList_toList])

/-- What fits is kept as it is. -/
theorem clip_eq_self (h : (String.ofList cs).utf8ByteSize ≤ limit) : clip limit cs = cs := by
  have hkept : clip limit cs <+: cs := clip_prefix limit cs
  exact hkept.eq_of_length
    (Nat.le_antisymm hkept.length_le (prefix_clip List.prefix_rfl h).length_le)

end FeedbackQueue
