import FeedbackQueue.Proofs.Acts
import FeedbackQueue.Proofs.Defects

/-!
# What a sweep does

A sweep pops the slots of a ready level one by one and pushes them on the next, from the level below
the top down, and raises running and sleeping processes where they are.  Of what a table records it
moves the ready levels up by one, gives active processes below the top one level and a full budget,
and touches nothing else: neither the chains and links of the other places nor markers and counters.

## Main definitions

* `Table.Promoted` : two tables before and after a sweep.

## Main statements

* `Sound.promoted_of_view_eq` : a table whose view is swept has been promoted.
* `Table.sweep_of_audit` : a sweep of a table that passes its audit ends, and this is what it does.
-/

namespace FeedbackQueue

namespace View

variable {P : Params} {v : View} {i : Slot} {level : Nat}

theorem sweep_queue_between (hpos : 0 < level) (hlt : level < P.maxPriority) :
    (v.sweep P).queue (.ready level) = v.queue (.ready (level - 1)) := by
  simp [sweep, lift, hpos, hlt, Nat.le_of_lt hlt]

theorem sweep_queue_bottom (hmax : 0 < P.maxPriority) : (v.sweep P).queue (.ready 0) = [] := by
  simp [sweep, lift, hmax]

theorem sweep_record_of_lt (hactive : (v.record i).stage.isActive = true)
    (hlt : (v.record i).priority < P.maxPriority) : (v.sweep P).record i =
      { v.record i with priority := (v.record i).priority + 1, budget := P.budget } := by
  simp only [sweep, hactive, if_true]
  exact if_pos hlt

theorem sweep_record_of_not (h : (v.record i).stage.isActive = true →
    P.maxPriority ≤ (v.record i).priority) : (v.sweep P).record i = v.record i := by
  simp only [sweep]
  split
  · exact if_neg (Nat.not_lt.2 (h ‹_›))
  · rfl

/-- On one level there is nothing to sweep. -/
theorem sweep_eq_self (hmax : P.maxPriority = 0) : v.sweep P = v := by
  refine View.ext (funext fun i => ?_) (funext fun place => ?_) rfl rfl rfl rfl
  · exact sweep_record_of_not fun _ => hmax ▸ Nat.zero_le _
  · rcases place with s | level
    · rfl
    · have habove : ¬ (0 < level ∧ level = 0) := by omega
      simp [sweep, lift, hmax, habove]

end View

namespace Table

variable {P : Params} {t t' : Table P}

/-- A table before and after a promotion sweep. -/
structure Promoted (t t' : Table P) : Prop where
  /-- The slots of the level below the top follow those of the top. -/
  top : 0 < P.maxPriority → t'.queue (.ready P.maxPriority) =
    t.queue (.ready P.maxPriority) ++ t.queue (.ready (P.maxPriority - 1))
  /-- A level in between has the slots of the level below it. -/
  between : ∀ level, 0 < level → level < P.maxPriority →
    t'.queue (.ready level) = t.queue (.ready (level - 1))
  /-- The lowest level is empty. -/
  bottom : 0 < P.maxPriority → t'.queue (.ready 0) = []
  /-- With one level nothing happens. -/
  single : P.maxPriority = 0 → t' = t
  /-- An active process below the top gets one level and a full budget. -/
  raised : ∀ i, (t.record i).stage.isActive = true → (t.record i).priority < P.maxPriority →
    t'.record i = { t.record i with priority := (t.record i).priority + 1, budget := P.budget }
  /-- A process at the top, and one that is not active, stays as it is. -/
  kept : ∀ i, ((t.record i).stage.isActive = true → P.maxPriority ≤ (t.record i).priority) →
    t'.record i = t.record i
  /-- The chains of the stages are the same. -/
  chain_eq : ∀ s, t'.chain? (.stage s) = t.chain? (.stage s)
  /-- They have the same slots in the same order. -/
  queue_eq : ∀ s, t'.queue (.stage s) = t.queue (.stage s)
  /-- Only runnable slots are linked anew. -/
  link_eq : ∀ i : Slot, (t.record i).stage ≠ .runnable → t'.links[i]? = t.links[i]?
  /-- The same slots are on the CPUs. -/
  markers_eq : t'.markers = t.markers
  /-- The next pid is the same. -/
  nextPid_eq : t'.nextPid = t.nextPid
  /-- The tick of the next sweep is the same. -/
  sweepAt_eq : t'.sweepAt = t.sweepAt
  /-- The root is the same. -/
  root_eq : t'.root = t.root

theorem Sound.promoted_of_view_eq (h : t.Sound) (h' : t'.Sound)
    (hview : t'.view = t.view.sweep P) : t.Promoted t' := by
  have hrecord : ∀ i, t'.record i = (t.view.sweep P).record i :=
    congrFun (congrArg View.record hview)
  have hqueue : ∀ place, t'.queue place = (t.view.sweep P).queue place :=
    congrFun (congrArg View.queue hview)
  have hstage : ∀ s, t'.queue (.stage s) = t.queue (.stage s) := fun s => hqueue _
  refine
    { top := fun hmax => ?_
      between := fun level hpos hlt => (hqueue _).trans (View.sweep_queue_between hpos hlt)
      bottom := fun hmax => (hqueue _).trans (View.sweep_queue_bottom hmax)
      single := fun hmax => h.eq_of_view_eq h' (hview.trans (View.sweep_eq_self hmax))
      raised := fun i hactive hlt => (hrecord i).trans (View.sweep_record_of_lt hactive hlt)
      kept := fun i hi => (hrecord i).trans (View.sweep_record_of_not hi)
      chain_eq := fun s => h.threaded.chain?_eq h'.threaded (hstage s)
      queue_eq := hstage
      link_eq := fun i hi => ?_
      markers_eq := markers_eq (congrArg View.marker hview)
      nextPid_eq := congrArg View.nextPid hview
      sweepAt_eq := congrArg View.sweepAt hview
      root_eq := congrArg View.root hview }
  · simp [hqueue, View.sweep, View.lift, hmax]
  · refine h.link_eq h'.threaded ?_
    rw [Process.home_of_ne hi]
    exact hstage _

/-- **A sweep of a table that passes its audit ends.**  Each ready level has taken the slots of the
level below it, the top level behind its own, so that nobody has moved twice or been lost; active
processes below the top have one level more and a full budget; and all else is as before, so that
the table passes its audit again. -/
theorem sweep_of_audit (hcheck : P.check = .ok ()) (hlevels : P.maxPriority < word32)
    (haudit : t.audit = .ok ()) :
    ∃ t', t.sweep = .ok t' ∧ t.Promoted t' ∧ t'.audit = .ok () := by
  obtain ⟨h, hscheduled⟩ := sound_of_audit hcheck haudit
  obtain ⟨t', e, h', hview⟩ := h.yields_sweep.exists_ok hlevels
  refine ⟨t', e, h.promoted_of_view_eq h' hview, h'.audit_eq_ok_iff.2 ?_⟩
  rw [hview]
  exact View.quiet_sweep.scheduled hscheduled

/-- Two processes at the lowest of three levels, one above them and one asleep. -/
def threeLevels : Table { capacity := 4, maxPriority := 2, cpus := 1 } where
  procs := #v[{ pid := 1, stage := .runnable, budget := 7 },
    { pid := 2, stage := .runnable, priority := 1, budget := 7 },
    { pid := 3, stage := .runnable, budget := 7 },
    { pid := 4, stage := .sleeping, priority := 2, budget := 7, channel := some .ticks }]
  links := #v[none, none, some 0, none]
  unused := {}
  embryo := {}
  sleeping := { head := some 3, tail := some 3, len := 1 }
  running := {}
  zombie := {}
  ready := #v[{ head := some 2, tail := some 0, len := 2 },
    { head := some 1, tail := some 1, len := 1 }, {}]
  markers := Vector.replicate 1 none
  nextPid := 5
  sweepAt := 0
  root := some 0

/-- The order on a level is kept, and the sleeper at the top keeps what is left of its budget. -/
theorem sweep_of_threeLevels : ∃ t', threeLevels.sweep = .ok t' ∧
    t'.queue (.ready 0) = [] ∧ t'.queue (.ready 1) = [2, 0] ∧ t'.queue (.ready 2) = [1] ∧
      (t'.record 0).budget = 300 ∧ (t'.record 3).budget = 7 ∧ t'.audit = .ok () := by
  obtain ⟨t', e, hpromoted, haudit⟩ := sweep_of_audit (t := threeLevels) (by decide) (by decide)
    (by decide)
  refine ⟨t', e, hpromoted.bottom (by decide), ?_, ?_, ?_, ?_, haudit⟩
  · exact hpromoted.between 1 (by decide) (by decide)
  · exact hpromoted.top (by decide)
  · rw [hpromoted.raised 0 rfl (by decide)]
    rfl
  · rw [hpromoted.kept 3 fun _ => Nat.le_refl _]
    rfl

end Table

end FeedbackQueue
