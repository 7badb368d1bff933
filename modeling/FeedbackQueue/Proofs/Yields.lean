import FeedbackQueue.Failure

/-!
# What an operation yields

An operation on a table either comes to a value or faults.  `Yields g r Q` says of a result `r`
that a value has the property `Q`, that there is a value wherever the guard `g` holds, and that no
fault comes from an audit.  With the guard `True` it is total correctness, with the guard `False`
partial correctness; in both cases an audit that fails is excluded.

Operations that only read a sound table do not fault at all.  They are rewritten by equations, for
which the last section prepares the searches of a list.

## Main definitions

* `Fault.byAudit` : whether a fault is reported by an audit.
* `Yields` : guarded correctness of a result.
-/

namespace FeedbackQueue

/-- Whether a fault is reported by an audit. -/
def Fault.byAudit : Fault → Bool
  | .inconsistent _ => true
  | _ => false

variable {α β : Type}

/-- A value of `r` has the property `Q`; a fault happens only outside `g`, and not in an audit. -/
def Yields (g : Prop) (r : Except Fault α) (Q : α → Prop) : Prop :=
  match r with
  | .ok a => Q a
  | .error f => ¬ g ∧ f.byAudit = false

namespace Yields

variable {g g' : Prop} {r : Except Fault α} {k : α → Except Fault β} {Q Q' : α → Prop}
  {R : β → Prop}

theorem ok {a : α} (h : Q a) : Yields g (.ok a) Q := h

theorem pure {a : α} (h : Q a) : Yields g (Pure.pure a) Q := h

theorem error {f : Fault} (h : ¬ g) (hf : f.byAudit = false) :
    Yields g (.error f : Except Fault α) Q := ⟨h, hf⟩

theorem mono (h : Yields g r Q) (hg : g' → g) (hQ : ∀ a, Q a → Q' a) : Yields g' r Q' := by
  cases r with
  | ok a => exact hQ a h
  | error f => exact ⟨fun hg' => h.1 (hg hg'), h.2⟩

theorem weaken (h : Yields g r Q) (hQ : ∀ a, Q a → Q' a) : Yields g r Q' := h.mono id hQ

theorem restrict (h : Yields g r Q) (hg : g' → g) : Yields g' r Q := h.mono hg fun _ => id

theorem bind (h : Yields g r Q) (hk : ∀ a, Q a → Yields g (k a) R) : Yields g (r >>= k) R := by
  cases r with
  | ok a => exact hk a h
  | error f => exact h

/-- Where the first part is known, the rest decides. -/
theorem bind_eq {a : α} (e : r = .ok a) (hk : Yields g (k a) R) : Yields g (r >>= k) R := by
  rw [e]
  exact hk

theorem map {f : α → β} (h : Yields g r fun a => R (f a)) : Yields g (f <$> r) R := by
  cases r with
  | ok a => exact h
  | error f => exact h

theorem of_ok {a : α} (h : Yields g r Q) (e : r = .ok a) : Q a := by
  rw [e] at h
  exact h

theorem exists_ok (h : Yields g r Q) (hg : g) : ∃ a, r = .ok a ∧ Q a := by
  cases r with
  | ok a => exact ⟨a, rfl, h⟩
  | error f => exact absurd hg h.1

theorem not_byAudit {f : Fault} (h : Yields g r Q) (e : r = .error f) : f.byAudit = false := by
  rw [e] at h
  exact h.2

end Yields

/-! ### Checks -/

theorem yields_addBelow {limit a b : Nat} :
    Yields (a + b < limit) (addBelow limit a b) fun c => a + b < limit ∧ c = a + b := by
  unfold addBelow
  split
  · exact .ok ⟨‹_›, rfl⟩
  · exact .error ‹_› rfl

theorem Process.yields_require {p : Process} {expected : Stage} :
    Yields (p.stage = expected) (p.require expected) fun _ => p.stage = expected := by
  unfold require
  split
  · exact .ok ‹_›
  · exact .error ‹_› rfl

/-! ### Parts of a result -/

section Parts

variable {ε : Type}

theorem bind_eq_ok {r : Except ε α} {k : α → Except ε β} {b : β} :
    (r >>= k) = .ok b ↔ ∃ a, r = .ok a ∧ k a = .ok b := by
  cases r <;> simp [bind, Except.bind]

/-- A test of every entry of a list passes, or fails in one of them. -/
theorem forM_eq_ok_or (f : α → Except ε Unit) (xs : List α) :
    (xs.forM f = .ok () ∧ ∀ x ∈ xs, f x = .ok ()) ∨
      ∃ x ∈ xs, ∃ e, f x = .error e ∧ xs.forM f = .error e := by
  induction xs with
  | nil => exact .inl ⟨rfl, nofun⟩
  | cons x xs ih =>
    rw [List.forM]
    cases hx : f x with
    | error e => exact .inr ⟨x, List.mem_cons_self, e, hx, rfl⟩
    | ok u =>
      rcases ih with ⟨hok, hall⟩ | ⟨y, hy, e, he, herr⟩
      · refine .inl ⟨hok, fun y hy => ?_⟩
        rcases List.mem_cons.1 hy with rfl | hy
        · exact hx
        · exact hall y hy
      · exact .inr ⟨y, List.mem_cons_of_mem _ hy, e, he, herr⟩

theorem forM_eq_ok {xs : List α} {f : α → Except ε Unit} (h : ∀ x ∈ xs, f x = .ok ()) :
    xs.forM f = .ok () := by
  rcases forM_eq_ok_or f xs with ⟨hok, -⟩ | ⟨x, hx, e, he, -⟩
  · exact hok
  · rw [h x hx] at he
    cases he

end Parts

/-! ### Searches that cannot fault -/

section Searches

variable {xs : List α}

theorem filterM_eq_ok {f : α → Except Fault Bool} {p : α → Bool} (h : ∀ a ∈ xs, f a = .ok (p a)) :
    xs.filterM f = .ok (xs.filter p) := by
  have key : ∀ acc : List α, xs.filterAuxM f acc = .ok ((xs.filter p).reverse ++ acc) := by
    induction xs with
    | nil => exact fun acc => rfl
    | cons a xs ih =>
      intro acc
      have hrest := ih fun b hb => h b (List.mem_cons_of_mem _ hb)
      rw [List.filterAuxM, h a List.mem_cons_self]
      change xs.filterAuxM f (cond (p a) (a :: acc) acc) = _
      rw [hrest]
      cases hp : p a <;> simp [hp]
  unfold List.filterM
  rw [key]
  change Except.ok _ = _
  simp

theorem findM?_eq_ok {f : α → Except Fault Bool} {p : α → Bool} (h : ∀ a ∈ xs, f a = .ok (p a)) :
    xs.findM? f = .ok (xs.find? p) := by
  induction xs with
  | nil => rfl
  | cons a xs ih =>
    have hrest := ih fun b hb => h b (List.mem_cons_of_mem _ hb)
    rw [List.findM?, h a List.mem_cons_self]
    cases hp : p a with
    | true => simp [hp, bind, Except.bind, pure, Except.pure]
    | false => simpa [List.find?_cons, hp, bind, Except.bind] using hrest

theorem findSomeM?_eq_ok {f : α → Except Fault (Option β)} {p : α → Option β}
    (h : ∀ a ∈ xs, f a = .ok (p a)) : xs.findSomeM? f = .ok (xs.findSome? p) := by
  induction xs with
  | nil => rfl
  | cons a xs ih =>
    have hrest := ih fun b hb => h b (List.mem_cons_of_mem _ hb)
    rw [List.findSomeM?_cons, h a List.mem_cons_self]
    cases hp : p a with
    | some b => simp [hp, bind, Except.bind, pure, Except.pure]
    | none => simpa [hp, bind, Except.bind] using hrest

theorem anyM_eq_ok {f : α → Except Fault Bool} {p : α → Bool} (h : ∀ a ∈ xs, f a = .ok (p a)) :
    xs.anyM f = .ok (xs.any p) := by
  induction xs with
  | nil => rfl
  | cons a xs ih =>
    have hrest := ih fun b hb => h b (List.mem_cons_of_mem _ hb)
    rw [List.anyM, h a List.mem_cons_self]
    cases hp : p a with
    | true => simp [hp, bind, Except.bind, pure, Except.pure]
    | false => simpa [hp, bind, Except.bind] using hrest

theorem mapM_eq_ok {f : α → Except Fault β} {p : α → β} (h : ∀ a ∈ xs, f a = .ok (p a)) :
    xs.mapM f = .ok (xs.map p) := by
  induction xs with
  | nil => rfl
  | cons a xs ih =>
    rw [List.mapM_cons, h a List.mem_cons_self, ih fun b hb => h b (List.mem_cons_of_mem _ hb)]
    rfl

end Searches

end FeedbackQueue
