import FeedbackQueue.Proofs.Deeds
import FeedbackQueue.Proofs.Ledger
import FeedbackQueue.Proofs.Starvation

/-!
# Disciplined histories

What the steps of a disciplined run keep, read off its history.

## Main statements

* `Machine.History.split` : a history up to one of its steps, the step, and what follows.
* `Machine.History.kept`, `Machine.History.balanced` : what disciplined histories keep.
-/

namespace FeedbackQueue

theorem filterMap_singleton {α β : Type} {f : α → Option β} {a : α} :
    [a].filterMap f = (f a).toList := by
  rw [List.filterMap_cons]
  cases f a <;> rfl

namespace Machine

variable {P : Params}

/-- Whatever else a grant leaves alone, it is steady. -/
theorem Grants.steady {m : Machine P} {i : Slot} {files : Multiset FileHandle} {t : Table P}
    (h : m.Grants i files t) (hm : m.table.Orderly) : m.table.view.Steady t.view := by
  obtain ⟨-, files', cwd, hview, -⟩ := h.exists_view hm
  rw [hview]
  exact View.steady_revise ⟨rfl, rfl, .rfl, rfl, rfl, rfl, rfl, rfl, rfl⟩

/-- A disciplined event gives back what is out. -/
theorem Disciplined.honest {m : Machine P} {e : Event} (h : m.Disciplined e) : m.Honest e :=
  fun cpu handoff hback => ⟨cpu, (h.reclaims cpu handoff hback).1⟩

namespace History

variable {m m₁ : Machine P} {past later : List (Step P)} {s : Step P}

/-- A history up to one of its steps, the step, and what follows. -/
theorem split (h : m.History (past ++ s :: later) m₁) : m.History past s.before ∧
    s.before.CanHappen s.event ∧
      ∃ m₂, s.before.perform s.event = .ok (s.result, m₂) ∧ m₂.History later m₁ := by
  generalize hsteps : past ++ s :: later = steps at h
  induction h generalizing later with
  | nil => cases past <;> cases hsteps
  | @event steps m₂ m₃ e p h hcan hperform ih =>
    rcases List.eq_nil_or_concat later with rfl | ⟨later, last, rfl⟩
    · obtain ⟨rfl, hlast⟩ := List.append_inj' hsteps rfl
      cases hlast
      exact ⟨h, hcan, m₃, hperform, .nil⟩
    · rw [List.concat_eq_append, ← List.cons_append, ← List.append_assoc] at hsteps
      obtain ⟨hbefore, hlast⟩ := List.append_inj' hsteps rfl
      cases hlast
      obtain ⟨hpast, hs, m', hstep, hlater⟩ := ih hbefore
      rw [List.concat_eq_append]
      exact ⟨hpast, hs, m', hstep, hlater.event hcan hperform⟩
  | grant _ hgrants ih =>
    obtain ⟨hpast, hs, m', hstep, hlater⟩ := ih hsteps
    exact ⟨hpast, hs, m', hstep, hlater.grant hgrants⟩

/-- What disciplined histories keep. -/
theorem kept (h : m.History past m₁) (hm : m.Kept)
    (hdisciplined : ∀ s ∈ past, s.before.Disciplined s.event) : m₁.Kept := by
  induction h with
  | nil => exact hm
  | event _ hcan hperform ih =>
    obtain ⟨hpast, hlast⟩ := List.forall_mem_append.1 hdisciplined
    exact (ih hpast).of_perform_eq_ok (hlast _ List.mem_cons_self) hcan hperform
  | grant _ hgrants ih => exact (ih hdisciplined).of_grants hgrants

/-- In disciplined histories one handoff is out for every CPU in use. -/
theorem balanced (h : m.History past m₁) (hm : m.Kept) (hb : m.Balanced)
    (hdisciplined : ∀ s ∈ past, s.before.Disciplined s.event) : m₁.Balanced := by
  have hrun : Reaches Honest m m₁ := ⟨past, h, fun s hs => (hdisciplined s hs).honest⟩
  exact hrun.balanced hm.regular.orderly hm.regular.started hb

end History

end Machine

end FeedbackQueue
