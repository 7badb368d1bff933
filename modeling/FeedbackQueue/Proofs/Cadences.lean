import FeedbackQueue.Proofs.Intervals
import FeedbackQueue.Proofs.Standing

/-!
# The cadence of sweeps

Any CPU may find a sweep due: when it is taken back from its process, or when it finds nothing to
run.  All of them look at one tick, which every sweep moves an interval beyond its own reading of
the clock.  So in the course of a run two sweeps are never closer than an interval, even if the
clock is set back between them; and whoever has looked leaves no sweep overdue.

## Main definitions

* `Machine.Step.isReview`, `Machine.Step.reading` : the steps that ask whether a sweep is due, and
  the reading of the clock that they go by.
* `Machine.sweeps` : the readings of the sweeps of a run.
* `Machine.Step.Timed` : what a step does about sweeps.

## Main statements

* `Machine.timed_of_perform_eq_ok` : one step.
* `Machine.History.spaced` : the sweeps of a run and the tick of the next one.
* `Machine.spaced_of_history` : the cadence of the sweeps of a table.
-/

namespace FeedbackQueue

/-- How a deed asks for a sweep: outright, or if one is due by a reading of the clock. -/
def Deed.ask? : Deed → Option (Option Nat)
  | sweep => some none
  | sweepIfDue now | reclaim _ _ now => some (some now)
  | _ => none

namespace View

variable {P : Params} {v : View} {i : Slot} {now : Nat}

theorem adopt_sweepAt : (v.adopt P i).sweepAt = v.sweepAt := by
  unfold adopt
  dsimp only
  split
  · split <;> rfl
  · rfl

theorem assign_sweepAt {priority : Nat} : (v.assign P i priority).sweepAt = v.sweepAt := by
  unfold assign
  dsimp only
  split <;> rfl

end View

namespace Act

variable {P : Params} {v : View} {a : Act} {i : Slot} {d : Deed} {now : Nat}

/-- A deed that asks for no sweep leaves the tick of the next one alone. -/
theorem sweepAt_apply (hd : a.deed? = some d) (hask : d.ask? = none) :
    (a.apply P v).sweepAt = v.sweepAt := by
  cases a with
  | retire cpu i now =>
    exact (View.adopt_sweepAt (v := v.wakeParent (v.record i))).trans View.wakeParent_sweepAt
  | assign => exact View.assign_sweepAt
  | reclaim | sweepIfDue =>
    cases hd
    cases hask
  | giveStack | copy | surrender | wake | rouse | kill | setUid | setGid => cases hd
  | _ => rfl

/-- Nor does it raise anybody, unless by putting a process on a level. -/
theorem priority_apply_le (h : a.Enabled v) (hd : a.deed? = some d) (hask : d.ask? = none)
    (hassign : ∀ j priority, a ≠ .assign j priority) (hi : (v.record i).stage ≠ .unused) :
    ((a.apply P v).record i).priority ≤ (v.record i).priority := by
  cases a with
  | conceive j now =>
    have hne : i ≠ j := by
      rintro rfl
      exact hi h.2
    rw [record_of_writes (a := .conceive j now) rfl hne]
  | discard | abandon | crown | launch | reap =>
    exact (congrArg Standing.priority (standing_of_writes rfl fun _ h => by cases h)).le
  | retire cpu j now =>
    obtain ⟨_, _, _, _, _, e, -, -⟩ := v.retire_record_eq (P := P) j i now
    rw [apply, e]
  | await cpu j now | park cpu j channel now | yield cpu j now =>
    rw [apply, View.leave_record, Function.update_apply]
    split
    · subst i
      exact Process.charge_priority_le
    · exact Nat.le_refl _
  | depart cpu j now =>
    rw [apply, View.depart, View.revise_record, Function.update_apply]
    split
    · subst i
      exact Nat.le_refl _
    · exact Nat.le_refl _
  | dispatch cpu handoff now =>
    rw [apply, View.dispatch, View.mark_record, View.shift_record, Function.update_apply]
    split
    · subst i
      exact Nat.le_refl _
    · exact Nat.le_refl _
  | reclaim | sweepIfDue | sweep =>
    cases hd
    cases hask
  | assign j priority => exact absurd rfl (hassign j priority)
  | _ => cases hd

/-- A deed that asks if a sweep is due makes it where it is, after steady changes. -/
theorem exists_sweepIfDue (hd : a.deed? = some d) (hask : d.ask? = some (some now)) :
    ∃ w : View, (∀ i, (v.record i).Steady (w.record i)) ∧ w.sweepAt = v.sweepAt ∧
      a.apply P v = w.sweepIfDue P now := by
  cases a with
  | reclaim cpu i =>
    cases hd
    cases hask
    exact ⟨v.vacate cpu i, fun j => Table.steady_vacate.1, (Table.steady_vacate (j := 0)).2, rfl⟩
  | sweepIfDue =>
    cases hd
    cases hask
    exact ⟨v, fun i => .refl _, rfl, rfl⟩
  | giveStack | copy | surrender | wake | rouse | kill | setUid | setGid => cases hd
  | _ =>
    cases hd
    cases hask

end Act

namespace Machine

variable {P : Params} {m m₁ : Machine P} {e : Event} {p : Progress} {steps : List (Step P)}

/-! ### Reviews -/

namespace Step

/-- Whether a step asks if a sweep is due: on request, after a CPU has been taken back, and where a
CPU has found nothing to run. -/
def isReview (s : Step P) : Bool :=
  match s.event with
  | .start (.sweepIfDue _) _ | .start (.reclaim _ _) _ | .answer ⟨_, .running _ _ _⟩ _ _ => true
  | .answer ⟨_, .enabling _ _⟩ _ _ => !s.isDispatch
  | _ => false

/-- The reading of the clock that a step goes by. -/
def reading (s : Step P) : Nat :=
  match s.event with
  | .start (.sweepIfDue due) _ => due
  | e => e.now

/-- A sweep is made on request, or by a step that finds one due. -/
theorem isSweep_iff {s : Step P} : s.isSweep = true ↔
    (∃ clock, s.event = .start .sweep clock) ∨ s.isReview = true ∧ s.isDue s.reading = true := by
  obtain ⟨before, e, p⟩ := s
  cases e with
  | start request clock =>
    cases request <;> simp [isSweep, isReview, reading, Event.now, Event.clock]
  | answer task reply clock =>
    obtain ⟨caller, suspension⟩ := task
    cases suspension <;> simp [isSweep, isReview, reading, Event.now, Event.clock, and_comm]

/-- But for direct requests, only the deed of a review asks for a sweep. -/
theorem ask_eq (s : Step P) (hdirect : ∀ clock, s.event ≠ .start .sweep clock) :
    (s.event.deed? s.result).bind Deed.ask? =
      if s.isReview then some (some s.reading) else none := by
  obtain ⟨before, e, p⟩ := s
  cases e with
  | start request clock =>
    -- the deed of many requests depends on how they end
    cases request <;> first
      | rfl
      | exact absurd rfl (hdirect clock)
      | simp only [Event.deed?, Request.deed?, Progress.allocates, Progress.exits, Progress.waits,
          Progress.polls, Progress.sleeps, Progress.dispatches, Progress.assigns]
        split <;> rfl
  | answer task reply clock =>
    obtain ⟨caller, suspension⟩ := task
    cases suspension with
    | allocating i purpose =>
      cases reply with
      | none => rfl
      | some stack =>
        cases purpose with
        | bare | root => rfl
        | child plan =>
          simp only [Event.deed?, Suspension.deed?]
          split <;> rfl
    | mapping => cases reply <;> rfl
    | copying =>
      cases reply with
      | none => rfl
      | some space =>
        simp only [Event.deed?, Suspension.deed?, Progress.launches]
        split <;> rfl
    | duplicating | duplicatingCwd =>
      simp only [Event.deed?, Suspension.deed?, Progress.launches]
      split <;> rfl
    | closing =>
      simp only [Event.deed?, Suspension.deed?, Progress.exits]
      split <;> rfl
    | switching cpu resumption =>
      cases resumption <;> first
        | rfl
        | simp only [Event.deed?, Suspension.deed?, Progress.waits, Progress.sleeps]
          split <;> rfl
    | enabling cpu forever =>
      cases p with
      | returned outcome => rfl
      | waiting suspension => cases suspension <;> rfl
    | undoing | freeingStack | freeingSpace | running | idling => rfl

end Step

/-- The readings of the clock that the sweeps of a run are made at. -/
def sweeps (steps : List (Step P)) : List Nat := (steps.filter Step.isSweep).map Step.reading

/-- What a step that leads to a machine does about sweeps. -/
structure Step.Timed (s : Step P) (m : Machine P) : Prop where
  /-- A sweep is not made before its tick. -/
  due : s.isSweep = true → s.before.table.sweepAt ≤ s.reading
  /-- A sweep moves the tick of the next one an interval beyond its reading. -/
  next : s.isSweep = true → m.table.sweepAt = s.reading + P.sweepEvery
  /-- A sweep finds every record, as far as levels go. -/
  swept : s.isSweep = true → ∀ i,
    ((s.before.table.record i).swept P).Steady (m.table.record i)
  /-- Without a sweep the tick stays. -/
  kept : s.isSweep = false → m.table.sweepAt = s.before.table.sweepAt
  /-- Without a sweep nobody rises, unless by a request for a level. -/
  level : s.isSweep = false →
    (∀ pid priority clock, s.event ≠ .start (.setPriority pid priority) clock) →
    ∀ i, (s.before.table.record i).stage ≠ .unused →
      (m.table.record i).priority ≤ (s.before.table.record i).priority
  /-- After a review no sweep is overdue. -/
  ahead : 0 < P.maxPriority → s.isReview = true → s.reading < m.table.sweepAt

/-- A step that makes no sweep, although it may have asked for one. -/
theorem Step.timed_of_not_sweep {s : Step P} (hsweep : s.isSweep = false)
    (hkept : m.table.sweepAt = s.before.table.sweepAt)
    (hlevel : (∀ pid priority clock, s.event ≠ .start (.setPriority pid priority) clock) →
      ∀ i, (s.before.table.record i).stage ≠ .unused →
        (m.table.record i).priority ≤ (s.before.table.record i).priority) : s.Timed m where
  due hs := absurd hs (by simp [hsweep])
  next hs := absurd hs (by simp [hsweep])
  swept hs := absurd hs (by simp [hsweep])
  kept _ := hkept
  level _ := hlevel
  ahead hmax hreview := by
    rw [hkept]
    refine Nat.lt_of_not_le fun hle => ?_
    have hdue : s.isSweep = true := isSweep_iff.2 (.inr ⟨hreview, decide_eq_true ⟨hle, hmax⟩⟩)
    rw [hsweep] at hdue
    cases hdue

/-- A review is a sweep where one is due, between steady changes. -/
theorem Step.timed_of_review {s : Step P} {w : View} (hreview : s.isReview = true)
    (hevery : 0 < P.sweepEvery) (hdirect : ∀ clock, s.event ≠ .start .sweep clock)
    (hrecord : ∀ i, (s.before.table.record i).Steady (w.record i))
    (hsweepAt : w.sweepAt = s.before.table.sweepAt)
    (hsteady : (w.sweepIfDue P s.reading).Steady m.table.view) : s.Timed m := by
  have hnext : m.table.sweepAt = (w.sweepIfDue P s.reading).sweepAt := hsteady.sweepAt
  have hrecords := hsteady.record
  by_cases hdue : w.sweepAt ≤ s.reading ∧ 0 < P.maxPriority
  · rw [View.sweepIfDue, if_pos hdue] at hnext hrecords
    have hsweep : s.isSweep = true :=
      isSweep_iff.2 (.inr ⟨hreview, decide_eq_true (hsweepAt ▸ hdue)⟩)
    exact
      { due := fun _ => hsweepAt ▸ hdue.1
        next := fun _ => hnext
        swept := fun _ i => (hrecord i).swept.trans (hrecords i)
        kept := fun hs => absurd hsweep (by simp [hs])
        level := fun hs => absurd hsweep (by simp [hs])
        ahead := fun _ _ => hnext ▸ Nat.lt_add_of_pos_right hevery }
  · rw [View.sweepIfDue, if_neg hdue] at hnext hrecords
    refine timed_of_not_sweep ?_ (hnext.trans hsweepAt) fun _ i _ => ?_
    · rw [Bool.eq_false_iff, ne_eq, isSweep_iff]
      rintro (⟨now, he⟩ | ⟨-, hd⟩)
      · exact hdirect now he
      · exact hdue (hsweepAt ▸ of_decide_eq_true hd)
    · exact ((hrecord i).trans (hrecords i)).priority.le

/-- **What an event does about sweeps**, unless it is a direct request for one. -/
theorem timed_of_perform_eq_ok (h : m.table.Orderly) (hperform : m.perform e = .ok (p, m₁))
    (hevery : 0 < P.sweepEvery) (hdirect : ∀ clock, e ≠ .start .sweep clock) :
    Step.Timed ⟨m, e, p⟩ m₁ := by
  have hask := Step.ask_eq ⟨m, e, p⟩ hdirect
  dsimp only at hask
  cases hreview : Step.isReview ⟨m, e, p⟩ with
  | false =>
    rw [hreview] at hask
    have hsweep : Step.isSweep ⟨m, e, p⟩ = false := by
      rw [Bool.eq_false_iff, ne_eq, Step.isSweep_iff, hreview]
      rintro (⟨now, he⟩ | ⟨he, -⟩)
      · exact hdirect now he
      · cases he
    cases does_of_perform_eq_ok h hperform with
    | steady _ hsteady =>
      exact Step.timed_of_not_sweep hsweep hsteady.sweepAt fun _ i _ =>
        (hsteady.record i).priority.le
    | @deed d u a hdeed ha howns hu he hw =>
      rw [hdeed] at hask
      refine Step.timed_of_not_sweep hsweep
        (hw.sweepAt.trans ((Act.sweepAt_apply ha hask).trans hu.sweepAt)) fun hlevel i hi => ?_
      have hassign : ∀ j priority, a ≠ .assign j priority := by
        rintro j priority rfl
        obtain ⟨pid, now, he⟩ := howns
        exact hlevel pid priority now he
      have hused : (u.record i).stage ≠ .unused := by
        rw [ne_eq, ← Stage.phase_eq_free, (hu.record i).phase, Stage.phase_eq_free]
        exact hi
      calc (m₁.table.record i).priority
          = ((a.apply P u).record i).priority := (hw.record i).priority
        _ ≤ (u.record i).priority := Act.priority_apply_le he ha hask hassign hused
        _ = (m.table.record i).priority := (hu.record i).priority
  | true =>
    rw [hreview] at hask
    cases does_of_perform_eq_ok h hperform with
    | steady hdeed =>
      rw [hdeed] at hask
      cases hask
    | @deed d u a hdeed ha _ hu _ hw =>
      rw [hdeed] at hask
      obtain ⟨w, hrecord, hsweepAt, happly⟩ := Act.exists_sweepIfDue (P := P) (v := u) ha hask
      rw [happly] at hw
      exact Step.timed_of_review hreview hevery hdirect
        (fun i => (hu.record i).trans (hrecord i)) (hsweepAt.trans hu.sweepAt) hw

/-! ### Runs -/

theorem sweeps_append {s : Step P} :
    sweeps (steps ++ [s]) = sweeps steps ++ if s.isSweep then [s.reading] else [] := by
  unfold sweeps
  rw [List.filter_append, List.map_append, List.filter_singleton]
  cases s.isSweep <;> rfl

/-- **The sweeps of a run are an interval apart**, and so is the next one from the last of them. -/
theorem History.spaced {start : Nat} (h : m.History steps m₁) (hm : m.table.Orderly)
    (hevery : 0 < P.sweepEvery) (hdirect : ∀ s ∈ steps, ∀ clock, s.event ≠ .start .sweep clock)
    (hstart : m.table.sweepAt = start + P.sweepEvery) :
    m₁.table.sweepAt = (sweeps steps).getLastD start + P.sweepEvery ∧
      (start :: sweeps steps).IsChain fun earlier later => earlier + P.sweepEvery ≤ later := by
  induction h with
  | nil => exact ⟨hstart, .singleton _⟩
  | @event past m₂ m₃ e p hrun _ hperform ih =>
    obtain ⟨hpast, hlast⟩ := List.forall_mem_append.1 hdirect
    obtain ⟨hsweepAt, hchain⟩ := ih hpast
    have htimed := timed_of_perform_eq_ok (hrun.orderly hm) hperform hevery
      (hlast _ List.mem_cons_self)
    cases hsweep : Step.isSweep ⟨m₂, e, p⟩ with
    | false =>
      rw [sweeps_append, hsweep, if_neg Bool.false_ne_true, List.append_nil, htimed.kept hsweep]
      exact ⟨hsweepAt, hchain⟩
    | true =>
      -- the tick of this sweep is an interval after the last one
      have hdue : m₂.table.sweepAt ≤ Step.reading ⟨m₂, e, p⟩ := htimed.due hsweep
      rw [sweeps_append, hsweep, if_pos rfl, htimed.next hsweep, List.getLastD_concat]
      refine ⟨rfl, hchain.append (.singleton _) ?_⟩
      intro earlier hearlier later hlater
      rw [List.getLast?_cons, ← List.getLastD_eq_getLast?, Option.mem_some_iff] at hearlier
      obtain rfl : Step.reading ⟨m₂, e, p⟩ = later := Option.some.inj hlater
      rwa [← hearlier, ← hsweepAt]
  | grant hrun hgrants ih =>
    have hsteady := hgrants.steady (hrun.orderly hm)
    exact ⟨hsteady.sweepAt.trans (ih hdirect).1, (ih hdirect).2⟩

/-- So many readings that are an interval apart take so many intervals. -/
theorem length_mul_le_of_isChain {every start : Nat} {readings : List Nat}
    (h : (start :: readings).IsChain fun earlier later => earlier + every ≤ later) :
    start + readings.length * every ≤ readings.getLastD start := by
  induction readings generalizing start with
  | nil => simp
  | cons reading readings ih =>
    obtain ⟨hle, hrest⟩ := List.isChain_cons_cons.1 h
    have hlast : reading + readings.length * every ≤ readings.getLastD reading := ih hrest
    rw [List.length_cons, Nat.succ_mul, List.getLastD_cons]
    omega

/-- On one level nobody makes a sweep but on request. -/
theorem sweeps_eq_nil (hmax : P.maxPriority = 0)
    (hdirect : ∀ s ∈ steps, ∀ clock, s.event ≠ .start .sweep clock) : sweeps steps = [] := by
  refine List.map_eq_nil_iff.2 (List.filter_eq_nil_iff.2 fun s hs hsweep => ?_)
  rcases Step.isSweep_iff.1 hsweep with ⟨now, he⟩ | ⟨-, hdue⟩
  · exact hdirect s hs now he
  · exact absurd (of_decide_eq_true hdue).2 (by omega)

/-- **Sweeps keep their cadence.**  In a run without direct requests for a sweep, the first sweep
comes an interval after the creation of the table or later, and each further one an interval after
the one before it or later, whatever the clock has read in between; so at a reading that none of
them is beyond, no more intervals than sweeps have passed.  The tick of the next sweep is an
interval after the last one.  A sweep raises every process that it finds, without one nobody rises
but by a request for a level, and a step that has asked for a sweep leaves none that is due.  On one
level there are no sweeps and the tick stays. -/
theorem spaced_of_history {t : Table P} {start : Nat} (hcreate : Table.create P start = .ok (.ok t))
    (hrun : History { table := t } steps m)
    (hdirect : ∀ s ∈ steps, ∀ clock, s.event ≠ .start .sweep clock) :
    ((start :: sweeps steps).IsChain fun earlier later => earlier + P.sweepEvery ≤ later) ∧
    (∀ clock, start ≤ clock → (∀ reading ∈ sweeps steps, reading ≤ clock) →
      start + (sweeps steps).length * P.sweepEvery ≤ clock) ∧
    m.table.sweepAt = (sweeps steps).getLastD start + P.sweepEvery ∧
    (∀ e p m₁, m.perform e = .ok (p, m₁) → (∀ clock, e ≠ .start .sweep clock) →
      Step.Timed ⟨m, e, p⟩ m₁) ∧
    (P.maxPriority = 0 → sweeps steps = [] ∧ m.table.sweepAt = t.sweepAt) := by
  obtain ⟨ht, hview⟩ := Table.orderly_of_create hcreate
  obtain ⟨-, -, -, -, hevery⟩ := P.of_check (Table.create_eq_ok hcreate).1
  have hstart : t.sweepAt = start + P.sweepEvery := congrArg View.sweepAt hview
  obtain ⟨hsweepAt, hchain⟩ := hrun.spaced ht hevery hdirect hstart
  refine ⟨hchain, fun clock hclock hreadings => ?_, hsweepAt, fun e p m₁ hperform he => ?_,
    fun hmax => ?_⟩
  · refine Nat.le_trans (length_mul_le_of_isChain hchain) ?_
    rw [List.getLastD_eq_getLast?]
    cases hlast : (sweeps steps).getLast? with
    | none => exact hclock
    | some reading => exact hreadings reading (List.mem_of_getLast? hlast)
  · exact timed_of_perform_eq_ok (hrun.orderly ht) hperform hevery he
  · have hnone := sweeps_eq_nil hmax hdirect
    rw [hsweepAt, hnone, hstart]
    exact ⟨rfl, rfl⟩

/-- An idle CPU looks for work at the readings `4`, `2` and `7`; the second time no sweep is due. -/
theorem spaced_of_idling : ∃ (t : Table ⟨1, 1, 1, 3, 1, true⟩) (steps : List (Step _))
    (m : Machine _), Table.create _ 0 = .ok (.ok t) ∧ History { table := t } steps m ∧
      sweeps steps = [4, 7] ∧ [0, 4, 7].IsChain (fun earlier later => earlier + 3 ≤ later) ∧
      m.table.sweepAt = 10 := by
  obtain ⟨t, steps, m, hcreate, hrun, hevents, hsweeps⟩ :
      ∃ (t : Table ⟨1, 1, 1, 3, 1, true⟩) (steps : List (Step _)) (m : Machine _),
        Table.create _ 0 = .ok (.ok t) ∧ History { table := t } steps m ∧
        steps.map Step.event = [.start (.pass 0) 4, .answer ⟨none, .enabling 0 false⟩ () 4,
          .start (.pass 0) 2, .answer ⟨none, .enabling 0 false⟩ () 2,
          .start (.pass 0) 7, .answer ⟨none, .enabling 0 false⟩ () 7] ∧ sweeps steps = [4, 7] :=
    ⟨_, _, _, rfl,
      History.nil.event (e := .start (.pass 0) 4) trivial rfl
        |>.event (e := .answer ⟨none, .enabling 0 false⟩ () 4) List.mem_cons_self rfl
        |>.event (e := .start (.pass 0) 2) trivial rfl
        |>.event (e := .answer ⟨none, .enabling 0 false⟩ () 2) List.mem_cons_self rfl
        |>.event (e := .start (.pass 0) 7) trivial rfl
        |>.event (e := .answer ⟨none, .enabling 0 false⟩ () 7) List.mem_cons_self rfl, rfl, rfl⟩
  have hdirect : ∀ s ∈ steps, ∀ clock, s.event ≠ .start .sweep clock := by
    intro s hs now he
    have hmem : s.event ∈ steps.map Step.event := List.mem_map_of_mem hs
    rw [hevents, he] at hmem
    simp at hmem
  obtain ⟨hchain, -, hnext, -⟩ := spaced_of_history hcreate hrun hdirect
  rw [hsweeps] at hchain hnext
  exact ⟨t, steps, m, hcreate, hrun, hsweeps, hchain, hnext⟩

end Machine

end FeedbackQueue
