import FeedbackQueue.Proofs.Yields

/-!
# Two results that agree

`Yields` speaks of one run of an operation; `Agree` compares two.  Two results agree up to a
relation when both are values that it relates, or both are the same fault.  Its rules follow the
shape of a program, so two runs of one text are compared step by step.

## Main definitions

* `Agree` : two results agree up to a relation.

## Main statements

* `Agree.bind`, `Agree.foldlM` : sequences and loops.
* `Agree.error_iff`, `Agree.exists_ok` : what agreement means for the outcome.
-/

namespace FeedbackQueue

variable {ε α α' β β' γ : Type}

/-- Both results are values in relation, or both are the same fault. -/
inductive Agree (R : α → α' → Prop) : Except ε α → Except ε α' → Prop
  /-- Two values. -/
  | ok {a : α} {a' : α'} (h : R a a') : Agree R (.ok a) (.ok a')
  /-- One fault. -/
  | error (e : ε) : Agree R (.error e) (.error e)

namespace Agree

variable {R : α → α' → Prop} {S : β → β' → Prop} {r : Except ε α} {r' : Except ε α'}
  {k : α → Except ε β} {k' : α' → Except ε β'}

theorem pure {a : α} {a' : α'} (h : R a a') :
    Agree R (Pure.pure a : Except ε α) (Pure.pure a') := ok h

/-- A result agrees with itself. -/
theorem same (r : Except ε α) : Agree Eq r r := by
  cases r with
  | ok a => exact ok rfl
  | error e => exact error e

theorem of_eq {r r' : Except ε α} (h : r = r') : Agree Eq r r' := h ▸ same r

theorem mono {R' : α → α' → Prop} (h : Agree R r r') (himp : ∀ a a', R a a' → R' a a') :
    Agree R' r r' := by
  cases h with
  | ok h => exact ok (himp _ _ h)
  | error e => exact error e

theorem bind (h : Agree R r r') (hk : ∀ a a', R a a' → Agree S (k a) (k' a')) :
    Agree S (r >>= k) (r' >>= k') := by
  cases h with
  | ok h => exact hk _ _ h
  | error e => exact error e

/-- After equal results the two runs go on with one value. -/
theorem bind_eq {r r' : Except ε α} {k : α → Except ε β} {k' : α → Except ε β'} (h : r = r')
    (hk : ∀ a, Agree S (k a) (k' a)) : Agree S (r >>= k) (r' >>= k') := by
  refine (of_eq h).bind ?_
  rintro a _ rfl
  exact hk a

theorem ite {c : Prop} [Decidable c] {s : Except ε α} {s' : Except ε α'}
    (hthen : c → Agree R r r') (helse : ¬ c → Agree R s s') :
    Agree R (if c then r else s) (if c then r' else s') := by
  split
  · exact hthen ‹_›
  · exact helse ‹_›

theorem eq {r r' : Except ε α} (h : Agree Eq r r') : r = r' := by
  cases h with
  | ok h => rw [h]
  | error => rfl

/-- The two values are those of the two results. -/
theorem tagged (h : Agree R r r') :
    Agree (fun a a' => R a a' ∧ r = .ok a ∧ r' = .ok a') r r' := by
  cases h with
  | ok h => exact ok ⟨h, rfl, rfl⟩
  | error e => exact error e

/-- A loop over one list keeps two states in relation if each of its rounds does. -/
theorem foldlM {f : α → γ → Except ε α} {f' : α' → γ → Except ε α'} {xs : List γ} {s : α} {s' : α'}
    (h : R s s') (hstep : ∀ x ∈ xs, ∀ s s', R s s' → Agree R (f s x) (f' s' x)) :
    Agree R (xs.foldlM f s) (xs.foldlM f' s') := by
  induction xs generalizing s s' with
  | nil => exact ok h
  | cons x xs ih =>
    rw [List.foldlM_cons, List.foldlM_cons]
    refine (hstep x List.mem_cons_self s s' h).bind fun u u' hu => ?_
    exact ih hu fun y hy => hstep y (List.mem_cons_of_mem x hy)

theorem error_iff (h : Agree R r r') {e : ε} : r = .error e ↔ r' = .error e := by
  cases h with
  | ok h => exact iff_of_false nofun nofun
  | error e' => rw [Except.error.injEq, Except.error.injEq]

theorem exists_ok (h : Agree R r r') {a : α} (e : r = .ok a) : ∃ a', r' = .ok a' ∧ R a a' := by
  cases h with
  | ok h =>
    cases e
    exact ⟨_, rfl, h⟩
  | error => cases e

end Agree

end FeedbackQueue
