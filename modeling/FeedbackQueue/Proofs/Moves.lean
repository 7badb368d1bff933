import FeedbackQueue.Proofs.View

/-!
# Moving slots

Every change of a stage takes a slot off its home (`unlist`), changes its record (`revise`) and
appends it to its new home (`enlist`).  On a sound table the first faults only where the slot does
not exist or is in another stage, and the others do not fault at all; together they make the view
shift by one slot.

## Main statements

* `Sound.yields_unlist`, `SoundBut.yields_revise`, `SoundBut.yields_enlist` : the three parts.
* `Sound.yields_shift`, `Sound.yields_move` : all of a change.
-/

namespace FeedbackQueue

namespace View

variable {v : View} {i : Slot} {f g : Process → Process}

theorem revise_revise : (v.revise i f).revise i g = v.revise i fun p => g (f p) := by
  simp [revise]

end View

namespace Table

variable {P : Params} {t t' : Table P} {loose : Option Slot} {i j : Slot} {s : Stage}
  {f g : Process → Process}

/-- Two tables with the same links and chains thread the same sequences. -/
theorem Threaded.of_eq (h : t.Threaded) (hlinks : t'.links = t.links)
    (hchain : t'.chain? = t.chain?) : t'.Threaded := by
  intro place c hc
  rw [hchain] at hc
  have hqueue : t'.queue place = t.queue place := by rw [queue, queue, hlinks, hchain]
  rw [hqueue, hlinks]
  exact h place c hc

/-- The record that has been changed. -/
theorem record_of_revise (h : t'.view = t.view.revise i f) : t'.record i = f (t.record i) := by
  rw [← view_record, h, View.revise_record, Function.update_self, view_record]

theorem record_of_shift (h : t'.view = t.view.shift i f) : t'.record i = f (t.record i) := by
  rw [← view_record, h, View.shift_record, Function.update_self, view_record]

/-- A change of the remaining fields, with markers that name distinct slots. -/
theorem SoundBut.of_eq (h : t.SoundBut loose) (hrecord : t'.record = t.record)
    (hlinks : t'.links = t.links) (hchain : t'.chain? = t.chain?)
    (hlt : ∀ cpu i, t'.occupant? cpu = some i → i < P.capacity)
    (hinj : ∀ cpu cpu' i, t'.occupant? cpu = some i → t'.occupant? cpu' = some i → cpu = cpu') :
    t'.SoundBut loose where
  threaded := h.threaded.of_eq hlinks hchain
  valid := by
    have hqueue : t'.queue = t.queue := by
      funext place
      rw [queue, queue, hlinks, hchain]
    refine ⟨?_, ?_, hlt, hinj⟩
    · rw [view_queue, view_record, hqueue, hrecord]
      exact h.valid.mem_iff
    · rw [view_record, hrecord]
      exact h.valid.priority_le

theorem SoundBut.yields_revise (h : t.SoundBut loose)
    (hp : (f (t.record i)).priority ≤ P.maxPriority)
    (hhome : loose ≠ some i → (f (t.record i)).home = (t.record i).home) :
    Yields (i < P.capacity) (t.revise i f) fun t' =>
      i < P.capacity ∧ t'.SoundBut loose ∧ t'.view = t.view.revise i f := by
  by_cases hi : i < P.capacity
  · obtain ⟨t', e, hview, hlinks, hchain⟩ := t.revise_of_lt (f := f) hi
    rw [e]
    refine .ok ⟨hi, ⟨h.threaded.of_eq hlinks hchain, ?_⟩, hview⟩
    rw [hview]
    exact h.valid.revise hp hhome
  · rw [Table.revise, dif_neg hi]
    exact .error hi rfl

/-- The chain of the home of a slot. -/
theorem SoundBut.exists_homeChain (h : t.SoundBut loose) (i : Slot) :
    ∃ c, t.chain? (t.record i).home = some c ∧ t.homeChain (t.record i) = .ok c ∧
      c.Holds t.links (t.queue (t.record i).home) := by
  obtain ⟨c, hc⟩ := Option.isSome_iff_exists.1 (t.chain?_home_isSome (h.valid.priority_le i))
  exact ⟨c, hc, homeChain_eq_ok hc, h.threaded _ _ hc⟩

/-- A slot of one place is on no other. -/
theorem SoundBut.not_mem_of_ne (h : t.SoundBut loose) {place place' : Place}
    (hne : place' ≠ place) (hj : j ∈ t.queue place') : j ∉ t.queue place := by
  intro hj'
  have h₁ := ((h.valid.mem_iff place j).1 hj').2.1
  have h₂ := ((h.valid.mem_iff place' j).1 hj).2.1
  exact hne (h₂.symm.trans h₁)

theorem Sound.yields_unlist (h : t.Sound) :
    Yields (i < P.capacity ∧ (t.record i).stage = s) (t.unlist i s) fun t' =>
      (i < P.capacity ∧ (t.record i).stage = s) ∧ t'.SoundBut (some i) ∧
        t'.view = t.view.drop i := by
  unfold Table.unlist
  refine (yields_process.restrict And.left).bind ?_
  rintro p ⟨hi, hp⟩
  subst hp
  obtain ⟨c, hchain, hhome, hc⟩ := h.exists_homeChain i
  obtain ⟨c', links', e, hc', same⟩ := hc.remove (h.valid.mem_home hi)
  -- a slot is on the chain of its home, so that it is found; its stage is checked last
  refine .bind_eq hhome (.bind_eq e ?_)
  refine (Process.yields_require.restrict And.right).bind fun _ hs => ?_
  obtain ⟨hthreaded, hview⟩ := h.threaded.relink (by rw [hchain]; rfl) hc'
    fun place hne j hj => same j (h.not_mem_of_ne hne hj)
  refine .pure ⟨⟨hi, hs⟩, ⟨hthreaded, ?_⟩, hview⟩
  rw [hview]
  exact h.valid.drop hc.nodup

theorem SoundBut.yields_enlist (h : t.SoundBut (some i)) :
    Yields (i < P.capacity) (t.enlist i) fun t' =>
      i < P.capacity ∧ t'.Sound ∧ t'.view = t.view.append i := by
  unfold Table.enlist
  refine yields_process.bind ?_
  rintro p ⟨hi, hp⟩
  subst hp
  obtain ⟨c, hchain, hhome, hc⟩ := h.exists_homeChain i
  have hloose : ∀ place, i ∉ t.queue place := fun place hmem =>
    ((h.valid.mem_iff place i).1 hmem).2.2 rfl
  -- a loose slot is on no chain, so it can be pushed
  obtain ⟨c', links', e, hc', same⟩ := hc.push hi (hloose _)
  refine .bind_eq hhome (.bind_eq e ?_)
  obtain ⟨hthreaded, hview⟩ := h.threaded.relink (by rw [hchain]; rfl) hc'
    fun place hne j hj => same j (h.not_mem_of_ne hne hj) (by rintro rfl; exact hloose _ hj)
  refine .pure ⟨hi, ⟨hthreaded, ?_⟩, hview⟩
  rw [hview]
  exact h.valid.append hi

/-- Take a slot off its home, change its record and append it to its new home. -/
theorem Sound.yields_shift (h : t.Sound) (hp : (f (t.record i)).priority ≤ P.maxPriority) :
    Yields (i < P.capacity ∧ (t.record i).stage = s)
      (do let t ← t.unlist i s; let t ← t.revise i f; t.enlist i) fun t' =>
      (i < P.capacity ∧ (t.record i).stage = s) ∧ t'.Sound ∧ t'.view = t.view.shift i f := by
  refine h.yields_unlist.bind ?_
  rintro t₁ ⟨hg, h₁, v₁⟩
  have hrecord : t₁.record = t.record := congrArg View.record v₁
  refine ((h₁.yields_revise (f := f) (by rwa [hrecord]) fun hne => absurd rfl hne).restrict
    And.left).bind ?_
  rintro t₂ ⟨_, h₂, v₂⟩
  refine (h₂.yields_enlist.restrict And.left).weaken fun t₃ ⟨_, h₃, v₃⟩ => ⟨hg, h₃, ?_⟩
  rw [v₃, v₂, v₁]
  rfl

/-- The same, before further steps. -/
theorem Sound.yields_shift_then {α : Type} {k : Table P → Except Fault α} {R : α → Prop} {g : Prop}
    (h : t.Sound) (hp : (f (t.record i)).priority ≤ P.maxPriority)
    (hg : g → i < P.capacity ∧ (t.record i).stage = s)
    (hk : ∀ t', i < P.capacity → (t.record i).stage = s → t'.Sound → t'.view = t.view.shift i f →
      Yields g (k t') R) :
    Yields g (do let t ← t.unlist i s; let t ← t.revise i f; let t ← t.enlist i; k t) R := by
  have := ((h.yields_shift hp).restrict hg).bind (k := k) (R := R)
    fun t' ⟨⟨hi, hs⟩, h', hview⟩ => hk t' hi hs h' hview
  simpa only [bind_assoc] using this

theorem Sound.yields_move (h : t.Sound) {source target : Stage} :
    Yields (i < P.capacity ∧ (t.record i).stage = source) (t.move i source target) fun t' =>
      (i < P.capacity ∧ (t.record i).stage = source) ∧ t'.Sound ∧
        t'.view = t.view.shift i fun p => { p with stage := target } :=
  h.yields_shift (h.valid.priority_le i)

end Table

end FeedbackQueue
