import FeedbackQueue.Proofs.Blocking
import FeedbackQueue.Table.Dispatch

/-!
# Dispatching on the view

A dispatch marks an idle CPU with a runnable slot that no CPU is marked with, and makes it running.
A reclaim takes the marker away; it is the one operation after which a running slot may be on no
CPU, and then an audited table faults.

## Main definitions

* `View.dispatch`, `View.reclaim` : the view after taking and giving back a CPU.

## Main statements

* `Orderly.yields_dispatch`, `Orderly.yields_reclaim`, `Orderly.yields_rest` : the operations.
* `Orderly.of_reclaim_eq_ok` : the same for every handoff, where the reclaim succeeds.
-/

namespace FeedbackQueue

/-- The record of a process that has been dispatched at `now`. -/
def Process.dispatch (now : Nat) (p : Process) : Process :=
  { p with stage := .running, dispatchedAt := now }

namespace View

variable {P : Params} {v : View} {i : Slot} {cpu cpu' : Cpu} {now : Nat}

/-- The view with a marker changed. -/
def mark (cpu : Cpu) (slot : Option Slot) (v : View) : View :=
  { v with marker := Function.update v.marker cpu slot }

/-- The view after a slot has been dispatched on a CPU. -/
def dispatch (i : Slot) (cpu : Cpu) (now : Nat) (v : View) : View :=
  (v.shift i (Process.dispatch now)).mark cpu (some i)

/-- The view after a CPU has been taken back from a slot. -/
def reclaim (P : Params) (cpu : Cpu) (i : Slot) (now : Nat) (v : View) : View :=
  let v := v.mark cpu none
  (if (v.record i).stage = .zombie then v.wakeParent (v.record i) else v).sweepIfDue P now

/-- The same before its sweep. -/
def vacate (cpu : Cpu) (i : Slot) (v : View) : View :=
  let v := v.mark cpu none
  if (v.record i).stage = .zombie then v.wakeParent (v.record i) else v

@[simp] theorem mark_record {slot : Option Slot} : (v.mark cpu slot).record = v.record := rfl
@[simp] theorem mark_marker {slot : Option Slot} :
    (v.mark cpu slot).marker = Function.update v.marker cpu slot := rfl

theorem sweepIfDue_marker : (v.sweepIfDue P now).marker = v.marker := by
  unfold sweepIfDue
  split <;> rfl

theorem sweep_stage : ((v.sweep P).record i).stage = (v.record i).stage := by
  unfold sweep
  dsimp only
  split <;> simp

theorem sweepIfDue_stage : ((v.sweepIfDue P now).record i).stage = (v.record i).stage := by
  unfold sweepIfDue
  split
  · exact sweep_stage
  · rfl

theorem reclaim_running_iff {j : Slot} :
    ((v.reclaim P cpu i now).record j).stage = .running ↔ (v.record j).stage = .running := by
  unfold reclaim
  rw [sweepIfDue_stage]
  split
  · exact wakeParent_running_iff
  · rfl

theorem reclaim_marker : (v.reclaim P cpu i now).marker = Function.update v.marker cpu none := by
  unfold reclaim
  rw [sweepIfDue_marker]
  split
  · rw [wakeParent_marker]
    rfl
  · rfl

/-- A slot that is dispatched is on its CPU, and no other leaves one. -/
theorem scheduled_dispatch (h : v.Scheduled) (hcpu : v.marker cpu = none) :
    (v.dispatch i cpu now).Scheduled := by
  intro j hj
  simp only [dispatch, mark_record, shift_record, mark_marker, shift_marker,
    Function.update_apply] at hj ⊢
  by_cases hji : j = i
  · exact ⟨cpu, by simp [hji]⟩
  · rw [if_neg hji] at hj
    obtain ⟨cpu', hcpu'⟩ := h j hj
    refine ⟨cpu', ?_⟩
    rw [if_neg (by rintro rfl; rw [hcpu] at hcpu'; cases hcpu')]
    exact hcpu'

/-- Once the process of a CPU has left the running stage, running slots stay on CPUs. -/
theorem scheduled_reclaim (h : v.Scheduled) (hcpu : v.marker cpu = some i)
    (hi : (v.record i).stage ≠ .running) : (v.reclaim P cpu i now).Scheduled := by
  intro j hj
  rw [reclaim_running_iff] at hj
  obtain ⟨cpu', hcpu'⟩ := h j hj
  refine ⟨cpu', ?_⟩
  rw [reclaim_marker, Function.update_of_ne, hcpu']
  rintro rfl
  rw [hcpu] at hcpu'
  cases hcpu'
  exact hi hj

end View

namespace Table

variable {P : Params} {t : Table P} {i : Slot} {cpu : Cpu} {now : Nat} {handoff : Handoff}

/-! ### Markers -/

/-- The table with another marker. -/
theorem view_setMarkers (t : Table P) (slot : Option Slot) (h : cpu < P.cpus) :
    view { t with markers := t.markers.set cpu slot h } = t.view.mark cpu slot := by
  refine View.ext rfl rfl (funext fun cpu' => ?_) rfl rfl rfl
  rw [view_marker, View.mark_marker, view_marker, Function.update_apply]
  unfold occupant?
  dsimp only
  rw [Vector.getElem?_set]
  by_cases hcpu : cpu' = cpu
  · simp [hcpu]
  · simp [hcpu, Ne.symm hcpu]

theorem SoundBut.setMarkers {loose : Option Slot} {slot : Option Slot} (h : t.SoundBut loose)
    (hcpu : cpu < P.cpus) (hlt : ∀ i, slot = some i → i < P.capacity)
    (hfree : ∀ i cpu', slot = some i → t.occupant? cpu' = some i → cpu' = cpu) :
    SoundBut { t with markers := t.markers.set cpu slot hcpu } loose := by
  have hmarker : ∀ cpu', occupant? { t with markers := t.markers.set cpu slot hcpu } cpu' =
      if cpu' = cpu then slot else t.occupant? cpu' := by
    intro cpu'
    rw [← view_marker, view_setMarkers, View.mark_marker, Function.update_apply, view_marker]
  refine h.of_eq rfl rfl rfl (fun cpu' i hi => ?_) fun cpu₁ cpu₂ i h₁ h₂ => ?_
  · rw [hmarker] at hi
    split at hi
    · exact hlt i hi
    · exact h.valid.marker_lt cpu' i hi
  · rw [hmarker] at h₁ h₂
    split at h₁ <;> split at h₂
    · simp_all
    · rw [hfree i cpu₂ h₁ h₂]
      assumption
    · rw [hfree i cpu₁ h₂ h₁]
      exact Eq.symm ‹_›
    · exact h.valid.marker_inj cpu₁ cpu₂ i h₁ h₂

/-! ### Dispatching -/

theorem Sound.of_next?_eq_some (h : t.Sound) (e : t.next? = some i) :
    i < P.capacity ∧ (t.record i).stage = .runnable ∧ ¬ t.view.Marked i := by
  obtain ⟨hlt, hstage⟩ := h.mem_members_iff.1 (List.mem_of_find?_eq_some e)
  have hmarked := List.find?_some e
  refine ⟨hlt, hstage, fun hm => ?_⟩
  rw [isMarked_iff.2 hm] at hmarked
  cases hmarked

/-- A dispatch on an idle CPU. -/
theorem Orderly.yields_dispatch (h : t.Orderly) :
    Yields (cpu < P.cpus ∧ t.occupant? cpu = none) (t.dispatch cpu now) fun
      | none => t.occupant? cpu = none ∧ t.next? = none
      | some (handoff, t') => t'.Orderly ∧ t.occupant? cpu = none ∧ t.next? = some handoff.slot ∧
          handoff.pid = (t.record handoff.slot).pid ∧
          t'.view = t.view.dispatch handoff.slot cpu now := by
  unfold dispatch
  cases hidle : t.occupant? cpu with
  | some busy =>
    refine .bind_eq (process_of_lt (h.sound.valid.marker_lt cpu busy hidle)) ?_
    exact .error nofun rfl
  | none =>
    change Yields _ (if h : cpu < P.cpus then _ else _) _
    by_cases hcpu : cpu < P.cpus
    · rw [dif_pos hcpu]
      split
      · exact .ok ⟨rfl, ‹_›⟩
      · rename_i i hnext
        obtain ⟨hlt, hstage, hfree⟩ := h.sound.of_next?_eq_some hnext
        refine h.sound.yields_shift_then (h.sound.valid.priority_le i) (fun _ => ⟨hlt, hstage⟩)
          fun t₁ _ _ h₁ hview₁ => ?_
        refine .bind_eq (process_of_lt hlt) ?_
        have hmarker₁ : t₁.occupant? = t.occupant? := congrArg View.marker hview₁
        have hview₂ := view_setMarkers t₁ (some i) hcpu
        -- the slot is on no CPU, so the new marker is like no other
        have h₂ : SoundBut { t₁ with markers := t₁.markers.set cpu (some i) hcpu } none := by
          refine h₁.setMarkers hcpu (fun j hj => ?_) fun j cpu' hj hcpu' => ?_
          · cases hj
            exact hlt
          · cases hj
            rw [hmarker₁] at hcpu'
            exact absurd ⟨cpu', hcpu'⟩ hfree
        generalize ({ t₁ with markers := t₁.markers.set cpu (some i) hcpu } : Table P) = t₂ at *
        have hview : t₂.view = t.view.dispatch i cpu now := by
          rw [hview₂, hview₁]
          rfl
        have h₂' : t₂.Orderly :=
          ⟨h₂, fun ha => hview ▸ View.scheduled_dispatch (h.scheduled ha) hidle⟩
        rw [h₂'.settle_eq]
        refine .ok ⟨h₂', rfl, hnext, ?_, hview⟩
        change (t₁.record i).pid = (t.record i).pid
        rw [record_of_shift hview₁]
    · rw [dif_neg hcpu]
      exact .error (fun hg => hcpu hg.1) rfl

/-! ### Taking a CPU back -/

/-- The part of a reclaim before its audit. -/
def withdraw (t : Table P) (cpu : Cpu) (handoff : Handoff) (now : Nat) :
    Except Fault (Table P) := do
  if t.occupant? cpu ≠ some handoff.slot then throw (.handoffMismatch cpu handoff.pid)
  let t := { t with markers := t.markers.setIfInBounds cpu none }
  let p ← t.process handoff.slot
  let t ← if p.stage = .zombie then t.wakeParent p else pure t
  t.sweepIfDue now

theorem reclaim_eq : t.reclaim cpu handoff now = t.withdraw cpu handoff now >>= settle := by
  unfold reclaim withdraw
  by_cases hcpu : t.occupant? cpu ≠ some handoff.slot
  · simp only [if_pos hcpu]
    rfl
  · simp only [if_neg hcpu, bind_assoc, pure_bind]
    refine bind_congr fun p => ?_
    split <;> simp only [bind_assoc]

/-- The part of a reclaim before its sweep. -/
def vacate (t : Table P) (cpu : Cpu) (handoff : Handoff) : Except Fault (Table P) := do
  if t.occupant? cpu ≠ some handoff.slot then throw (.handoffMismatch cpu handoff.pid)
  let t := { t with markers := t.markers.setIfInBounds cpu none }
  let p ← t.process handoff.slot
  if p.stage = .zombie then t.wakeParent p else pure t

theorem withdraw_eq : t.withdraw cpu handoff now = t.vacate cpu handoff >>= (·.sweepIfDue now) := by
  unfold withdraw vacate
  by_cases hcpu : t.occupant? cpu ≠ some handoff.slot
  · simp only [if_pos hcpu]
    rfl
  · simp only [if_neg hcpu, bind_assoc, pure_bind]
    refine bind_congr fun p => ?_
    split <;> rfl

theorem Sound.yields_vacate (h : t.Sound) :
    Yields (t.occupant? cpu = some handoff.slot ∧
        ∀ j, (t.record handoff.slot).parent = some j → j < P.capacity) (t.vacate cpu handoff)
      fun t' => t.occupant? cpu = some handoff.slot ∧ t'.Sound ∧
        t'.view = t.view.vacate cpu handoff.slot := by
  unfold vacate
  by_cases hoccupant : t.occupant? cpu = some handoff.slot
  · rw [if_neg (not_not.2 hoccupant)]
    have hcpu := lt_of_occupant? hoccupant
    have hlt := h.valid.marker_lt cpu _ hoccupant
    have hset : t.markers.setIfInBounds cpu none = t.markers.set cpu none hcpu := by
      ext k hk
      simp [Vector.getElem_setIfInBounds, Vector.getElem_set]
    have hview₁ := view_setMarkers t none hcpu
    have h₁ : Sound { t with markers := t.markers.set cpu none hcpu } :=
      h.setMarkers hcpu nofun nofun
    rw [hset]
    dsimp only
    generalize ({ t with markers := t.markers.set cpu none hcpu } : Table P) = t₁ at *
    have hrecord₁ : t₁.record = t.record := congrArg View.record hview₁
    refine .bind_eq (process_of_lt hlt) ?_
    rw [hrecord₁, View.vacate, ← hview₁]
    split
    · rw [if_pos (by rwa [view_record, hrecord₁]), view_record, hrecord₁]
      refine (h₁.yields_wakeParent.restrict And.right).weaken fun t₂ ⟨h₂, hview₂⟩ => ?_
      exact ⟨hoccupant, h₂, hview₂⟩
    · rw [if_neg (by rwa [view_record, hrecord₁])]
      exact .ok ⟨hoccupant, h₁, rfl⟩
  · rw [if_pos hoccupant]
    exact .error (fun hg => hoccupant hg.1) rfl

theorem Sound.yields_withdraw (h : t.Sound) :
    Yields (t.occupant? cpu = some handoff.slot ∧
        (∀ j, (t.record handoff.slot).parent = some j → j < P.capacity) ∧
        P.maxPriority < word32 ∧ now + P.sweepEvery < word64) (t.withdraw cpu handoff now)
      fun t' => t.occupant? cpu = some handoff.slot ∧ t'.Sound ∧
        t'.view = t.view.reclaim P cpu handoff.slot now := by
  rw [withdraw_eq]
  refine (h.yields_vacate.restrict fun hg => ⟨hg.1, hg.2.1⟩).bind ?_
  rintro t₁ ⟨hoccupant, h₁, hview₁⟩
  refine (h₁.yields_sweepIfDue.restrict fun hg => hg.2.2).weaken fun t' ⟨h', hview'⟩ => ?_
  refine ⟨hoccupant, h', ?_⟩
  rw [hview', hview₁]
  rfl

/-- The process of a handoff is still running on its CPU. -/
def Misused (t : Table P) (cpu : Cpu) (handoff : Handoff) : Prop :=
  t.occupant? cpu = some handoff.slot ∧ (t.record handoff.slot).stage = .running

/-- A reclaim from a process that has left the running stage. -/
theorem Orderly.yields_reclaim (h : t.Orderly)
    (hleft : P.audited = true → ¬ t.Misused cpu handoff) :
    Yields (t.occupant? cpu = some handoff.slot ∧
        (∀ j, (t.record handoff.slot).parent = some j → j < P.capacity) ∧
        P.maxPriority < word32 ∧ now + P.sweepEvery < word64) (t.reclaim cpu handoff now)
      fun t' => t'.Orderly ∧ t.occupant? cpu = some handoff.slot ∧
        t'.view = t.view.reclaim P cpu handoff.slot now := by
  rw [reclaim_eq]
  refine h.sound.yields_withdraw.bind ?_
  rintro t' ⟨hcpu, h', hview⟩
  have h'' : t'.Orderly := by
    refine ⟨h', fun ha => ?_⟩
    rw [hview]
    exact View.scheduled_reclaim (h.scheduled ha) hcpu fun hs => hleft ha ⟨hcpu, hs⟩
  rw [h''.settle_eq]
  exact .ok ⟨h'', hcpu, hview⟩

/-- A reclaim that succeeds leaves a table in order, whatever the handoff. -/
theorem Orderly.of_reclaim_eq_ok {t' : Table P} (h : t.Orderly)
    (e : t.reclaim cpu handoff now = .ok t') :
    t'.Orderly ∧ t.occupant? cpu = some handoff.slot ∧
      t'.view = t.view.reclaim P cpu handoff.slot now := by
  rw [reclaim_eq, bind_eq_ok] at e
  obtain ⟨t₁, e₁, e₂⟩ := e
  obtain ⟨hcpu, h₁, hview⟩ := h.sound.yields_withdraw.of_ok e₁
  obtain rfl := settle_eq_ok e₂
  refine ⟨⟨h₁, fun ha => ?_⟩, hcpu, hview⟩
  unfold settle audited at e₂
  rw [if_pos ha] at e₂
  refine h₁.audit_eq_ok_iff.1 ?_
  split at e₂
  · assumption
  · cases e₂

/-- An audit does not let a CPU be taken back from a running process. -/
theorem Orderly.not_misused_of_reclaim_eq_ok {t' : Table P} (h : t.Orderly) (ha : P.audited = true)
    (e : t.reclaim cpu handoff now = .ok t') : ¬ t.Misused cpu handoff := by
  rintro ⟨hcpu, hrunning⟩
  obtain ⟨h', -, hview⟩ := h.of_reclaim_eq_ok e
  have hrunning' : (t'.view.record handoff.slot).stage = .running := by
    rw [hview, View.reclaim_running_iff]
    exact hrunning
  -- still running, the slot has to be on another CPU
  obtain ⟨cpu', hcpu'⟩ := h'.scheduled ha handoff.slot hrunning'
  rw [hview, View.reclaim_marker, Function.update_apply] at hcpu'
  split at hcpu'
  · cases hcpu'
  · exact absurd (h.sound.valid.marker_inj cpu' cpu _ hcpu' hcpu) ‹_›

theorem Orderly.yields_rest (h : t.Orderly) :
    Yields (P.maxPriority < word32 ∧ now + P.sweepEvery < word64) (t.rest now) fun t' =>
      t'.Orderly ∧ t'.view = t.view.sweepIfDue P now := by
  unfold rest
  refine h.sound.yields_sweepIfDue.bind ?_
  rintro t' ⟨h', hview⟩
  have h'' : t'.Orderly := h.of_running h' (fun i hi => ?_)
    ((congrArg View.marker hview).trans View.sweepIfDue_marker)
  · rw [h''.settle_eq]
    exact .ok ⟨h'', hview⟩
  · rw [← view_record, hview, View.sweepIfDue_stage] at hi
    exact hi

end Table

end FeedbackQueue
