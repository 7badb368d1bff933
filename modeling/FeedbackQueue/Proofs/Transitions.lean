import FeedbackQueue.Proofs.Defects

/-!
# What a move does

A slot changes its stage by a move: it is taken off the place that its record names, from wherever
it stands there, and appended to the place that its record names once the stage in it is another.
The two places may be one, and then the slot goes to the end of it.  A move reads priorities and
writes none, so that a slot leaves and enters ready levels at the level it has.

The stage is tested last, when the slot has been found on its chain already.  In a table in order it
is found, so that only the test can fail; and in no table whatever does a slot leave another stage
than the one from which it is said to come.

## Main definitions

* `Table.Moved` : two tables before and after a move.

## Main statements

* `Sound.unlist_eq_error`, `stage_of_unlist_eq_ok` : the test of the stage.
* `Sound.audit_of_shift` : a table after a move passes its audit, unless the slot runs on no CPU.
* `Table.move_of_audit` : a move in a table that passes its audit ends, and this is what it does.
-/

namespace FeedbackQueue

namespace Table

variable {P : Params} {t t' : Table P} {i : Slot} {s source target : Stage}

/-! ### The test of the stage -/

/-- Of a table in order, only the test of the stage can refuse a slot. -/
theorem Sound.unlist_eq_error (h : t.Sound) (hi : i < P.capacity) (hs : (t.record i).stage ≠ s) :
    t.unlist i s = .error (.wrongStage (t.record i).pid (t.record i).stage s) := by
  obtain ⟨c, -, hhome, hc⟩ := h.exists_homeChain i
  obtain ⟨c', links', hremove, -, -⟩ := hc.remove (h.valid.mem_home hi)
  have hrequire : (t.record i).require s =
      .error (.wrongStage (t.record i).pid (t.record i).stage s) := if_neg hs
  -- record, chain and walk come to a value, one after the other
  rw [unlist, process_of_lt hi]
  change (t.homeChain (t.record i) >>= _) = _
  rw [hhome]
  change (c.remove t.links i >>= _) = _
  rw [hremove]
  change ((t.record i).require s >>= _) = _
  rw [hrequire]
  rfl

/-- Whatever the table, a slot that has been taken off its home was in the expected stage. -/
theorem stage_of_unlist_eq_ok (e : t.unlist i s = .ok t') : (t.record i).stage = s := by
  unfold unlist at e
  obtain ⟨p, hp, e⟩ := bind_eq_ok.1 e
  obtain ⟨c, -, e⟩ := bind_eq_ok.1 e
  obtain ⟨r, -, e⟩ := bind_eq_ok.1 e
  obtain ⟨-, rfl⟩ := yields_process.of_ok hp
  cases r with
  | none => cases e
  | some r =>
    obtain ⟨u, hrequire, -⟩ := bind_eq_ok.1 e
    exact Process.require_eq_ok.1 hrequire

theorem stage_of_move_eq_ok (e : t.move i source target = .ok t') :
    (t.record i).stage = source := by
  obtain ⟨t₁, hunlist, -⟩ := bind_eq_ok.1 e
  exact stage_of_unlist_eq_ok hunlist

/-! ### The move -/

/-- A table before and after a slot has been taken to another stage. -/
structure Moved (i : Slot) (target : Stage) (t t' : Table P) : Prop where
  /-- The slot has the new stage and whatever else it had. -/
  moved : t'.record i = { t.record i with stage := target }
  /-- Other slots have what they had. -/
  kept : ∀ j, j ≠ i → t'.record j = t.record j
  /-- The slot stood at its home, and only once. -/
  listed : (t.queue (t.record i).home).count i = 1
  /-- Its old home loses it, its new home gets it at the end, and the other places have the same
  slots in the same order. -/
  queue_eq : ∀ place, t'.queue place =
    (if (t.record i).home = place then (t.queue place).erase i else t.queue place) ++
      if (t'.record i).home = place then [i] else []
  /-- The chains of the other places are the same. -/
  chain_eq : ∀ place, (t.record i).home ≠ place → (t'.record i).home ≠ place →
    t'.chain? place = t.chain? place
  /-- Only slots of the two homes are linked anew. -/
  link_eq : ∀ j : Slot, (t.record i).home ≠ (t.record j).home →
    (t'.record i).home ≠ (t.record j).home → t'.links[j]? = t.links[j]?
  /-- The same slots are on the CPUs. -/
  markers_eq : t'.markers = t.markers
  /-- The next pid is the same. -/
  nextPid_eq : t'.nextPid = t.nextPid
  /-- The tick of the next sweep is the same. -/
  sweepAt_eq : t'.sweepAt = t.sweepAt
  /-- The root is the same. -/
  root_eq : t'.root = t.root

theorem Sound.moved_of_view_eq (h : t.Sound) (h' : t'.Sound) (hi : i < P.capacity)
    (hview : t'.view = t.view.shift i fun p => { p with stage := target }) :
    Moved i target t t' := by
  have hmoved := record_of_shift hview
  have hqueue : ∀ place, t'.queue place =
      (if (t.record i).home = place then (t.queue place).erase i else t.queue place) ++
        if (t'.record i).home = place then [i] else [] := by
    intro place
    rw [hmoved, ← view_queue, hview]
    exact View.shift_queue
  have hother : ∀ place, (t.record i).home ≠ place → (t'.record i).home ≠ place →
      t'.queue place = t.queue place := by
    intro place hold hnew
    rw [hqueue, if_neg hold, if_neg hnew, List.append_nil]
  exact
    { moved := hmoved
      kept := fun j hj => by
        rw [← view_record, hview, View.shift_record, Function.update_of_ne hj, view_record]
      listed := List.count_eq_one_of_mem (h.nodup_queue _) (h.valid.mem_home hi)
      queue_eq := hqueue
      chain_eq := fun place hold hnew => h.threaded.chain?_eq h'.threaded (hother place hold hnew)
      link_eq := fun j hold hnew => h.link_eq h'.threaded (hother _ hold hnew)
      markers_eq := markers_eq (congrArg View.marker hview)
      nextPid_eq := congrArg View.nextPid hview
      sweepAt_eq := congrArg View.sweepAt hview
      root_eq := congrArg View.root hview }

/-- A table after a move passes its audit, unless the slot is running now and no CPU is marked with
it. -/
theorem Sound.audit_of_shift (h' : t'.Sound) (hscheduled : t.view.Scheduled)
    (hview : t'.view = t.view.shift i fun p => { p with stage := target }) :
    t'.audit = if target = .running ∧ t.isMarked i = false
      then .error (.unscheduled i) else .ok () := by
  have hstage : (t'.record i).stage = target := congrArg Process.stage (record_of_shift hview)
  have hmarked : ∀ j, t'.view.Marked j ↔ t.view.Marked j := by
    intro j
    rw [hview]
    rfl
  rcases h'.audit_eq_ok_or with ⟨hok, hall⟩ | ⟨j, hj, hnot, herr⟩
  · -- every running slot is on a CPU, the one that has moved included
    rw [hok, if_neg]
    rintro ⟨rfl, hunmarked⟩
    have hon : t.isMarked i = true := isMarked_iff.2 ((hmarked i).1 (hall i hstage))
    rw [hunmarked] at hon
    cases hon
  · -- nobody else has begun to run
    have hji : j = i := by
      by_contra hne
      rw [← view_record, hview, View.shift_record, Function.update_of_ne hne] at hj
      exact hnot ((hmarked j).2 (hscheduled j hj))
    subst j
    have hunmarked : t.isMarked i = false :=
      Bool.eq_false_iff.2 fun hon => hnot ((hmarked i).2 (isMarked_iff.1 hon))
    rw [herr, if_pos ⟨hstage.symm.trans hj, hunmarked⟩]

/-- **A move takes one slot from stage to stage and does nothing else.**  In a table that passes its
audit a slot in its source stage is taken off its home and appended to its new home, of all records
its stage alone is written, and the table passes its audit again; the exception, which the audit
reports, is a slot that runs now while no CPU is marked with it.  From a stage in which it is not, a
slot is moved in no table, and a table that passes its audit names the stage that was found. -/
theorem move_of_audit (hi : i < P.capacity) (source target : Stage) :
    (t.audit = .ok () → (t.record i).stage = source →
      ∃ t', t.move i source target = .ok t' ∧ Moved i target t t' ∧
        t'.audit = if target = .running ∧ t.isMarked i = false
          then .error (.unscheduled i) else .ok ()) ∧
    ((t.record i).stage ≠ source → (∃ f, t.move i source target = .error f) ∧
      (t.audit = .ok () → t.move i source target =
        .error (.wrongStage (t.record i).pid (t.record i).stage source))) := by
  have hsound : t.audit = .ok () → t.Sound ∧ t.view.Scheduled := fun haudit =>
    (intact_of_audit (Nat.zero_lt_of_lt hi) haudit).sound
  refine ⟨fun haudit hstage => ?_, fun hstage => ⟨?_, fun haudit => ?_⟩⟩
  · obtain ⟨h, hscheduled⟩ := hsound haudit
    obtain ⟨t', e, -, h', hview⟩ : ∃ t', t.move i source target = .ok t' ∧ _ :=
      h.yields_move.exists_ok ⟨hi, hstage⟩
    exact ⟨t', e, h.moved_of_view_eq h' hi hview, h'.audit_of_shift hscheduled hview⟩
  · cases e : t.move i source target with
    | ok t' => exact absurd (stage_of_move_eq_ok e) hstage
    | error f => exact ⟨f, rfl⟩
  · obtain ⟨h, -⟩ := hsound haudit
    rw [move, h.unlist_eq_error hi hstage]
    rfl

/-- Three runnable processes on one level, slot `0` the second of them, and a sleeper. -/
def fourSlots : Table { capacity := 4, maxPriority := 1, cpus := 1 } where
  procs := #v[{ pid := 1, stage := .runnable, priority := 1 },
    { pid := 2, stage := .runnable, priority := 1 },
    { pid := 3, stage := .runnable, priority := 1 },
    { pid := 4, stage := .sleeping, priority := 1, channel := some .ticks }]
  links := #v[some 1, none, some 0, none]
  unused := {}
  embryo := {}
  sleeping := { head := some 3, tail := some 3, len := 1 }
  running := {}
  zombie := {}
  ready := #v[{}, { head := some 2, tail := some 1, len := 3 }]
  markers := Vector.replicate 1 none
  nextPid := 5
  sweepAt := 0
  root := some 0

/-- From the middle of its level the slot goes behind the sleeper, or to the end of the same level,
or onto no CPU; and it cannot come from where it is not. -/
theorem move_of_fourSlots :
    (∃ t', fourSlots.move 0 .runnable .sleeping = .ok t' ∧ t'.queue (.ready 1) = [2, 1] ∧
      t'.queue (.stage .sleeping) = [3, 0] ∧ t'.audit = .ok ()) ∧
    (∃ t', fourSlots.move 0 .runnable .runnable = .ok t' ∧ t'.queue (.ready 1) = [2, 1, 0] ∧
      t'.audit = .ok ()) ∧
    (∃ t', fourSlots.move 0 .runnable .running = .ok t' ∧ t'.audit = .error (.unscheduled 0)) ∧
    fourSlots.move 0 .sleeping .runnable = .error (.wrongStage 1 .runnable .sleeping) := by
  have hexact := fun source target =>
    move_of_audit (t := fourSlots) (i := 0) (by decide) source target
  have haudit : fourSlots.audit = .ok () := by decide
  refine ⟨?_, ?_, ?_, ((hexact _ _).2 (by decide)).2 haudit⟩
  · obtain ⟨t', e, hmoved, haudit'⟩ := (hexact .runnable .sleeping).1 haudit rfl
    refine ⟨t', e, ?_, ?_, haudit'⟩ <;> rw [hmoved.queue_eq, hmoved.moved] <;> rfl
  · obtain ⟨t', e, hmoved, haudit'⟩ := (hexact .runnable .runnable).1 haudit rfl
    refine ⟨t', e, ?_, haudit'⟩
    rw [hmoved.queue_eq, hmoved.moved]
    rfl
  · obtain ⟨t', e, -, haudit'⟩ := (hexact .runnable .running).1 haudit rfl
    exact ⟨t', e, haudit'⟩

end Table

end FeedbackQueue
