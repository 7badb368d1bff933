import FeedbackQueue.Proofs.Scans

/-!
# The pace of sweeps

Every sweep fixes the tick of the next one by a sum that has to fit in a word.  The parameters that
pass their check may have any interval, so the sum can fail, and then the change that made the sweep
faults: at the creation of a table as well as later.  Where the sum fits, the sweep is complete and
the next one is due an interval later.

## Main definitions

* `Table.SweepDue` : a sweep is due.
* `Table.Paces` : what comes of a change that makes a sweep if one is due.
* `Machine.Reschedules` : the events that make such a change.

## Main statements

* `Machine.paces_of_create` : a new table is usable, and its sweeps keep their pace, as long as the
  sums fit.
-/

namespace FeedbackQueue

/-- The record after a sweep. -/
def Process.swept (P : Params) (p : Process) : Process :=
  if p.stage.isActive then p.promote P else p

namespace Process.Steady

variable {P : Params} {p q : Process}

theorem isActive (h : p.Steady q) : q.stage.isActive = p.stage.isActive := by
  have hphase := h.phase
  cases hp : p.stage <;> cases hq : q.stage <;> rw [hp, hq] at hphase <;> cases hphase <;> rfl

/-- A sweep does the same to two records of one level and phase. -/
theorem swept (h : p.Steady q) : (p.swept P).Steady (q.swept P) := by
  unfold Process.swept Process.promote
  rw [h.isActive, h.priority]
  split
  · split
    · exact ⟨h.pid, h.phase, h.running, h.parent, rfl, rfl, h.startedAt, h.cpuTicks, h.dispatchedAt⟩
    · exact h
  · exact h

end Process.Steady

namespace Table

variable {P : Params} {t t' : Table P} {cpu : Cpu} {handoff : Handoff} {now : Nat}

/-! ### Sweeps that are due -/

/-- A sweep is due at `now`.  A table with one level has no sweeps. -/
abbrev SweepDue (t : Table P) (now : Nat) : Prop := t.sweepAt ≤ now ∧ 0 < P.maxPriority

/-- What comes of a change that makes a sweep if one is due at `now`: a sweep of all records, after
which the next one is due an interval later, or a fault where that tick does not fit in a word. -/
def Paces (t : Table P) (now : Nat) (r : Except Fault (Table P)) : Prop :=
  (t.SweepDue now → now + P.sweepEvery < word64 → ∃ t', r = .ok t' ∧
    t'.sweepAt = now + P.sweepEvery ∧ ∀ i, ((t.record i).swept P).Steady (t'.record i)) ∧
  (t.SweepDue now → word64 ≤ now + P.sweepEvery → r = .error .overflow) ∧
  (¬ t.SweepDue now → ∃ t', r = .ok t' ∧ t'.sweepAt = t.sweepAt ∧
    ∀ i, (t.record i).Steady (t'.record i))

theorem Sound.paces_sweepIfDue (h : t.Sound) (hlevels : P.maxPriority < word32) :
    t.Paces now (t.sweepIfDue now) := by
  unfold sweepIfDue
  refine ⟨fun hdue hfits => ?_, fun hdue hover => ?_, fun hdue => ?_⟩
  · obtain ⟨t₁, e, -, hview⟩ := h.yields_sweep.exists_ok hlevels
    have hsum := addBelow_eq_ok.2 ⟨hfits, rfl⟩
    rw [if_pos hdue, e]
    refine ⟨{ t₁ with sweepAt := now + P.sweepEvery }, ?_, rfl, fun i => ?_⟩
    · change (addBelow word64 now P.sweepEvery >>= _) = _
      rw [hsum]
      rfl
    · change Process.Steady _ (t₁.view.record i)
      rw [hview]
      exact .refl _
  · obtain ⟨t₁, e, -⟩ := h.yields_sweep.exists_ok hlevels
    have hsum : addBelow word64 now P.sweepEvery = .error .overflow := if_neg (Nat.not_lt.2 hover)
    rw [if_pos hdue, e]
    change (addBelow word64 now P.sweepEvery >>= _) = _
    rw [hsum]
    rfl
  · rw [if_neg hdue]
    exact ⟨t, rfl, rfl, fun i => .refl _⟩

/-- A table that shows the same levels paces its sweeps the same way. -/
theorem Paces.of_steady {t₁ : Table P} {r : Except Fault (Table P)} (h : t₁.Paces now r)
    (hsweepAt : t₁.sweepAt = t.sweepAt) (hrecord : ∀ i, (t.record i).Steady (t₁.record i)) :
    t.Paces now r := by
  unfold Paces SweepDue at *
  rw [hsweepAt] at h
  refine ⟨fun hdue hfits => ?_, h.2.1, fun hdue => ?_⟩
  · obtain ⟨t', e, hnext, hswept⟩ := h.1 hdue hfits
    exact ⟨t', e, hnext, fun i => (hrecord i).swept.trans (hswept i)⟩
  · obtain ⟨t', e, hnext, hsame⟩ := h.2.2 hdue
    exact ⟨t', e, hnext, fun i => (hrecord i).trans (hsame i)⟩

/-- A sweep leaves a table in order in order, so the audit after it changes nothing. -/
theorem Orderly.settle_sweepIfDue (h : t.Orderly) :
    t.sweepIfDue now >>= settle = t.sweepIfDue now := by
  cases e : t.sweepIfDue now with
  | error f => rfl
  | ok t' =>
    obtain ⟨h', hview⟩ := h.sound.yields_sweepIfDue.of_ok e
    have h'' : t'.Orderly := by
      refine h.of_running h' (fun i hi => ?_)
        ((congrArg View.marker hview).trans View.sweepIfDue_marker)
      rwa [← view_record, hview, View.sweepIfDue_stage] at hi
    exact h''.settle_eq

theorem Orderly.paces_rest (h : t.Orderly) (hlevels : P.maxPriority < word32) :
    t.Paces now (t.rest now) := by
  have hrest : t.rest now = t.sweepIfDue now := h.settle_sweepIfDue
  rw [hrest]
  exact h.sound.paces_sweepIfDue hlevels

/-- Until its sweep a reclaim leaves levels and clock readings alone. -/
theorem steady_vacate {v : View} {i j : Slot} : (v.record j).Steady ((v.vacate cpu i).record j) ∧
    (v.vacate cpu i).sweepAt = v.sweepAt := by
  have hwake := View.steady_wakeParent (v := v.mark cpu none) (p := v.record i)
  unfold View.vacate
  dsimp only
  split
  · exact ⟨hwake.record j, hwake.sweepAt⟩
  · exact ⟨.refl _, rfl⟩

/-- A sweep changes nothing in who is on a CPU. -/
theorem scheduled_of_sweepIfDue {v : View} (h : (v.sweepIfDue P now).Scheduled) :
    v.Scheduled := by
  intro i hi
  rw [← View.sweepIfDue_marker (P := P)]
  exact h i (View.sweepIfDue_stage.trans hi)

theorem Orderly.paces_reclaim (h : t.Orderly) (hclosed : t.Closed)
    (hlevels : P.maxPriority < word32)
    (hcpu : t.occupant? cpu = some handoff.slot)
    (hleft : P.audited = true → (t.record handoff.slot).stage ≠ .running) :
    t.Paces now (t.reclaim cpu handoff now) := by
  obtain ⟨t₁, e, -, h₁, hview₁⟩ := h.sound.yields_vacate.exists_ok ⟨hcpu, hclosed _⟩
  have h₁' : t₁.Orderly := by
    refine ⟨h₁, fun ha => ?_⟩
    have hafter : (t.view.reclaim P cpu handoff.slot now).Scheduled :=
      View.scheduled_reclaim (h.scheduled ha) hcpu (hleft ha)
    rw [hview₁]
    exact scheduled_of_sweepIfDue hafter
  have hreclaim : t.reclaim cpu handoff now = t₁.sweepIfDue now := by
    rw [reclaim_eq, withdraw_eq, e]
    exact h₁'.settle_sweepIfDue
  rw [hreclaim]
  refine (h₁.paces_sweepIfDue hlevels).of_steady ?_ fun i => ?_
  · rw [← view_sweepAt, hview₁]
    exact (steady_vacate (j := 0)).2
  · rw [← view_record, ← view_record, hview₁]
    exact steady_vacate.1

/-! ### New tables -/

theorem create_eq (hcheck : P.check = .ok ()) : create P now = .ok (fresh P now) := by
  unfold create
  rw [hcheck]
  rfl

theorem fresh_eq_overflow (hover : word64 ≤ now + P.sweepEvery) :
    fresh P now = .error .overflow := by
  have hsum : addBelow word64 now P.sweepEvery = .error .overflow := if_neg (Nat.not_lt.2 hover)
  unfold fresh
  rw [hsum]
  rfl

theorem exists_fresh (hfits : now + P.sweepEvery < word64) : ∃ t, fresh P now = .ok t := by
  unfold fresh
  rw [addBelow_eq_ok.2 ⟨hfits, rfl⟩]
  exact ⟨_, rfl⟩

end Table

namespace Machine

variable {P : Params} {m : Machine P} {e : Event} {now : Nat}

/-- The events that make a sweep if one is due at a reading of the clock: a request for it, a CPU
that is taken back from a process that has left it, and a CPU that finds nothing to run. -/
inductive Reschedules (m : Machine P) : Event → Nat → Prop
  /-- A sweep is asked for. -/
  | request (due : Nat) (clock : Clock) : Reschedules m (.start (.sweepIfDue due) clock) due
  /-- A CPU is taken back. -/
  | reclaim {cpu : Cpu} {handoff : Handoff} (clock : Clock) :
      m.table.occupant? cpu = some handoff.slot →
      (P.audited = true → (m.table.record handoff.slot).stage ≠ .running) →
      Reschedules m (.start (.reclaim cpu handoff) clock) clock.now
  /-- A pass takes its CPU back. -/
  | pass {cpu : Cpu} {given handoff : Handoff} {caller : Option Pid} {forever : Bool}
      (clock : Clock) :
      m.table.occupant? cpu = some handoff.slot →
      (P.audited = true → (m.table.record handoff.slot).stage ≠ .running) →
      Reschedules m (.answer ⟨caller, .running cpu given forever⟩ handoff clock) clock.now
  /-- A pass finds nothing to run. -/
  | idle {cpu : Cpu} {caller : Option Pid} {forever : Bool} (clock : Clock) :
      cpu < P.cpus → m.table.occupant? cpu = none → m.table.next? = none →
      Reschedules m (.answer ⟨caller, .enabling cpu forever⟩ () clock) clock.now

/-- The table that an event leaves. -/
def tableAfter (m : Machine P) (e : Event) : Except Fault (Table P) := (·.2.table) <$> m.perform e

/-- An event that returns the table of an operation. -/
theorem tableAfter_eq {r : Except Fault (Table P)} (p : Progress)
    (h : m.stretch e = r >>= fun t => .ok (p, t)) : m.tableAfter e = r := by
  unfold tableAfter perform
  rw [h]
  cases r <;> rfl

theorem Reschedules.paces (h : m.Reschedules e now) (hm : m.table.Orderly)
    (hclosed : m.table.Closed) (hlevels : P.maxPriority < word32) :
    m.table.Paces now (m.tableAfter e) := by
  cases h with
  | request =>
    rw [tableAfter_eq (.returned .done) rfl]
    exact hm.sound.paces_sweepIfDue hlevels
  | reclaim _ hcpu hleft =>
    rw [tableAfter_eq (.returned .done) rfl]
    exact hm.paces_reclaim hclosed hlevels hcpu hleft
  | @pass cpu given handoff caller forever clock hcpu hleft =>
    have hafter : m.tableAfter (.answer ⟨caller, .running cpu given forever⟩ handoff clock) =
        m.table.reclaim cpu handoff clock.now := by
      cases forever with
      | true => exact tableAfter_eq (.waiting (.enabling cpu true)) rfl
      | false => exact tableAfter_eq (.returned (.passed true)) rfl
    rw [hafter]
    exact hm.paces_reclaim hclosed hlevels hcpu hleft
  | @idle cpu caller forever clock hcpu hidle hnext =>
    have hdispatch : m.table.dispatch cpu clock.now = .ok none := by
      unfold Table.dispatch
      rw [hidle]
      change (if h : cpu < P.cpus then _ else _) = _
      rw [dif_pos hcpu, hnext]
      rfl
    have hround : m.table.dispatchRound cpu forever clock.now = m.table.rest clock.now >>= fun t =>
        if forever then t.suspend (.idling cpu) else t.finish (.passed false) := by
      unfold Table.dispatchRound
      rw [hdispatch]
      rfl
    have hafter : m.tableAfter (.answer ⟨caller, .enabling cpu forever⟩ () clock) =
        m.table.rest clock.now := by
      cases forever with
      | true => exact tableAfter_eq (.waiting (.idling cpu)) hround
      | false => exact tableAfter_eq (.returned (.passed false)) hround
    rw [hafter]
    exact hm.paces_rest hlevels

/-- **A table that passes the check of its parameters keeps its pace as long as the tick of its next
sweep fits in a word.**  It is created, passes its audit and expects its first sweep an interval
after its creation, unless that tick does not fit, and then the creation faults.  In every run each
event that makes a sweep if one is due completes the sweep and expects the next one an interval
later, unless that tick does not fit, and then the event faults. -/
theorem paces_of_create (hcheck : P.check = .ok ()) (hlevels : P.maxPriority < word32)
    (start : Nat) :
    (word64 ≤ start + P.sweepEvery → Table.create P start = .ok (.error .overflow)) ∧
    (start + P.sweepEvery < word64 → ∃ t, Table.create P start = .ok (.ok t) ∧
      t.audit = .ok () ∧ t.sweepAt = start + P.sweepEvery ∧
      ∀ steps m e now, History { table := t } steps m → m.Reschedules e now →
        m.table.Paces now (m.tableAfter e)) := by
  rw [Table.create_eq hcheck]
  refine ⟨fun hover => by rw [Table.fresh_eq_overflow hover], fun hfits => ?_⟩
  obtain ⟨t, e⟩ := Table.exists_fresh hfits
  have ht := Table.orderly_of_fresh_eq_ok e
  have hview := Table.view_of_fresh_eq_ok e
  refine ⟨t, by rw [e], ht.sound.audit_eq_ok_iff.2 ?_, congrArg View.sweepAt hview, ?_⟩
  · rw [hview]
    nofun
  · intro steps m e now hrun hreschedules
    have hclosed := ((enclosed_of_fresh hview).of_history ht hrun).closed
    exact hreschedules.paces (hrun.orderly ht) hclosed hlevels

theorem paces_of_due : ∃ (t : Table ⟨1, 1, 1, 3, 1, true⟩) (t' : Table _),
    Table.create _ 0 = .ok (.ok t) ∧ t.sweepAt = 3 ∧
      tableAfter { table := t } (.start (.sweepIfDue 5) 5) = .ok t' ∧ t'.sweepAt = 8 := by
  obtain ⟨t, hcreate, -, hsweepAt, hpaces⟩ :=
    (paces_of_create (P := ⟨1, 1, 1, 3, 1, true⟩) rfl (by decide) 0).2 (by decide)
  have hdue : t.SweepDue 5 := ⟨hsweepAt ▸ by decide, by decide⟩
  obtain ⟨t', e, hnext, -⟩ := (hpaces [] _ _ 5 .nil (.request 5 5)).1 hdue (by decide)
  exact ⟨t, t', hcreate, hsweepAt, e, hnext⟩

/-- Parameters that pass their check have intervals whose sums do not fit, at the creation of a
table and later. -/
theorem overflow_of_check : ∃ P : Params, P.check = .ok () ∧ P.maxPriority < word32 ∧
    P.sweepEvery < word64 ∧ Table.create P 1 = .ok (.error .overflow) ∧
      ∃ t now, Table.create P 0 = .ok (.ok t) ∧ now < word64 ∧ t.SweepDue now ∧
        tableAfter { table := t } (.start (.sweepIfDue now) { now }) = .error .overflow :=
  ⟨⟨1, 1, 1, word64 - 1, 1, true⟩, rfl, by decide, by decide, rfl, _, word64 - 1, rfl, by decide,
    ⟨by decide, by decide⟩, rfl⟩

end Machine

end FeedbackQueue
