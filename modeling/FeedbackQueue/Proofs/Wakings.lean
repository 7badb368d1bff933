import FeedbackQueue.Proofs.Acts
import FeedbackQueue.Proofs.Defects

/-!
# What a wake-up does

A wake-up collects the sleepers of a channel in chain order, takes each off the chain of sleeping
slots, from wherever it stands there, and appends it to its ready level.  Both sequences keep their
order: those who sleep on stand as they stood, and those woken on one level stand as they stood
among the sleepers.  As the call returns nobody sleeps on the channel, so that a second wake-up
finds nobody and changes nothing.

## Main definitions

* `Table.Woken` : two tables before and after a wake-up.

## Main statements

* `Sound.length_sleepers` : the sleepers of a channel, counted over all slots.
* `Table.signal_of_audit` : a wake-up of a table that passes its audit ends, and this is what it
  does.
-/

namespace FeedbackQueue

namespace Table

variable {P : Params} {t t' : Table P} {c : Channel}

/-- A table before and after all processes that sleep on a channel have been woken. -/
structure Woken (c : Channel) (t t' : Table P) : Prop where
  /-- Nobody sleeps on the channel. -/
  silent : ∀ i, (t'.record i).sleepsOn c = false
  /-- The others sleep on in their order. -/
  sleeping : t'.queue (.stage .sleeping) =
    (t.queue (.stage .sleeping)).filter fun i => !(t.record i).sleepsOn c
  /-- On each level the woken slots come last, in the order in which they slept. -/
  ready : ∀ level, t'.queue (.ready level) = t.queue (.ready level) ++
    (t.queue (.stage .sleeping)).filter fun i =>
      (t.record i).sleepsOn c && (t.record i).priority == level
  /-- A woken process is runnable and sleeps on nothing. -/
  woken : ∀ i, (t.record i).sleepsOn c = true →
    t'.record i = { t.record i with channel := none, stage := .runnable }
  /-- Everybody else stays as they are. -/
  kept : ∀ i, (t.record i).sleepsOn c = false → t'.record i = t.record i
  /-- The chains of the other stages are the same. -/
  chain_eq : ∀ s, s ≠ .sleeping → t'.chain? (.stage s) = t.chain? (.stage s)
  /-- They have the same slots in the same order. -/
  queue_eq : ∀ s, s ≠ .sleeping → t'.queue (.stage s) = t.queue (.stage s)
  /-- Only sleeping and runnable slots are linked anew. -/
  link_eq : ∀ i : Slot, (t.record i).stage ≠ .sleeping → (t.record i).stage ≠ .runnable →
    t'.links[i]? = t.links[i]?
  /-- The same slots are on the CPUs. -/
  markers_eq : t'.markers = t.markers
  /-- The next pid is the same. -/
  nextPid_eq : t'.nextPid = t.nextPid
  /-- The tick of the next sweep is the same. -/
  sweepAt_eq : t'.sweepAt = t.sweepAt
  /-- The root is the same. -/
  root_eq : t'.root = t.root

theorem Sound.woken_of_view_eq (h : t.Sound) (h' : t'.Sound) (hview : t'.view = t.view.wake c) :
    Woken c t t' := by
  have hrecord : ∀ i, t'.record i =
      if (t.record i).sleepsOn c then (t.record i).awaken else t.record i :=
    congrFun (congrArg View.record hview)
  have hqueue : ∀ place, t'.queue place = (t.view.wake c).queue place :=
    congrFun (congrArg View.queue hview)
  have hstage : ∀ s, s ≠ .sleeping → t'.queue (.stage s) = t.queue (.stage s) := by
    intro s hs
    rw [hqueue]
    cases s <;> first | rfl | exact absurd rfl hs
  refine
    { silent := fun i => ?_
      sleeping := hqueue _
      ready := fun level => hqueue _
      woken := fun i hi => (hrecord i).trans (if_pos hi)
      kept := fun i hi => (hrecord i).trans (if_neg (by simp [hi]))
      chain_eq := fun s hs => h.threaded.chain?_eq h'.threaded (hstage s hs)
      queue_eq := hstage
      link_eq := fun i hsleeping hrunnable => h.link_eq h'.threaded ?_
      markers_eq := markers_eq (congrArg View.marker hview)
      nextPid_eq := congrArg View.nextPid hview
      sweepAt_eq := congrArg View.sweepAt hview
      root_eq := congrArg View.root hview }
  · rw [hrecord]
    split
    · exact Process.sleepsOn_awaken
    · exact Bool.eq_false_iff.2 ‹_›
  · rw [Process.home_of_ne hrunnable]
    exact hstage _ hsleeping

/-- The sleepers of a channel, counted over all slots. -/
theorem Sound.length_sleepers (h : t.Sound) (c : Channel) :
    ((t.queue (.stage .sleeping)).filter fun i => (t.record i).sleepsOn c).length =
      (List.range P.capacity).countP fun i => (t.record i).sleepsOn c := by
  rw [List.countP_eq_length_filter]
  refine ((List.perm_ext_iff_of_nodup ((h.nodup_queue _).filter _)
    (List.nodup_range.filter _)).2 fun i => ?_).length_eq
  simp only [List.mem_filter, List.mem_range]
  refine and_congr_left fun hsleeps => ?_
  have hstage := (Process.sleepsOn_iff.1 hsleeps).1
  exact iff_of_true (h.mem_sleeping_iff.2 hstage) (lt_of_stage_eq hstage)

/-- A wake-up that finds nobody changes nothing. -/
theorem Orderly.signal_eq_self (h : t.Orderly) (hsilent : ∀ i, (t.record i).sleepsOn c = false) :
    t.signal c = .ok (0, t) := by
  obtain ⟨t', e, h', hview⟩ := h.signal_eq_ok c
  have hself : t' = t := h.sound.eq_of_view_eq h'.sound (hview.trans (View.wake_eq_self hsilent))
  have hnobody : ((t.queue (.stage .sleeping)).filter fun i => (t.record i).sleepsOn c) = [] :=
    List.filter_eq_nil_iff.2 fun i _ => by simp [hsilent i]
  rw [e, hself, hnobody, List.length_nil]

/-- **A wake-up of a table that passes its audit ends.**  It counts the sleepers of the channel,
takes them to the end of their ready levels in the order in which they slept, leaves all else as it
is, and the table passes its audit again.  A second wake-up counts nobody and leaves the table as it
is. -/
theorem signal_of_audit (hcheck : P.check = .ok ()) (haudit : t.audit = .ok ()) (c : Channel) :
    ∃ t', t.signal c = .ok ((List.range P.capacity).countP fun i => (t.record i).sleepsOn c, t') ∧
      Woken c t t' ∧ t'.audit = .ok () ∧ t'.signal c = .ok (0, t') := by
  obtain ⟨h, hscheduled⟩ := sound_of_audit hcheck haudit
  have horderly : t.Orderly := ⟨h, fun _ => hscheduled⟩
  obtain ⟨t', e, h', hview⟩ := horderly.signal_eq_ok c
  have hwoken : Woken c t t' := h.woken_of_view_eq h'.sound hview
  refine ⟨t', ?_, hwoken, h'.sound.audit_eq_ok_iff.2 ?_, h'.signal_eq_self hwoken.silent⟩
  · rw [e, h.length_sleepers]
  · rw [hview]
    exact View.quiet_wake.scheduled hscheduled

/-- Four sleepers, three of them on the tick counter, and a runnable process. -/
def fiveSlots : Table { capacity := 5, maxPriority := 1, cpus := 1 } where
  procs := #v[{ pid := 1, stage := .sleeping, priority := 1, channel := some .ticks },
    { pid := 2, stage := .sleeping, channel := some (.address 8) },
    { pid := 3, stage := .sleeping, channel := some .ticks },
    { pid := 4, stage := .runnable, priority := 1 },
    { pid := 5, stage := .sleeping, priority := 1, channel := some .ticks }]
  links := #v[none, some 0, some 4, none, some 1]
  unused := {}
  embryo := {}
  sleeping := { head := some 2, tail := some 0, len := 4 }
  running := {}
  zombie := {}
  ready := #v[{}, { head := some 3, tail := some 3, len := 1 }]
  markers := Vector.replicate 1 none
  nextPid := 6
  sweepAt := 0
  root := some 0

/-- Slot `4` slept before slot `0`, so it comes first on their level. -/
theorem signal_of_fiveSlots : ∃ t', fiveSlots.signal .ticks = .ok (3, t') ∧
    t'.queue (.stage .sleeping) = [1] ∧ t'.queue (.ready 0) = [2] ∧
      t'.queue (.ready 1) = [3, 4, 0] ∧ t'.audit = .ok () ∧ t'.signal .ticks = .ok (0, t') := by
  obtain ⟨t', e, hwoken, haudit, hsecond⟩ :=
    signal_of_audit (t := fiveSlots) (by decide) (by decide) .ticks
  exact ⟨t', e, hwoken.sleeping, hwoken.ready 0, hwoken.ready 1, haudit, hsecond⟩

end Table

end FeedbackQueue
