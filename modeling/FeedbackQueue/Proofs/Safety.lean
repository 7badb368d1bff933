import FeedbackQueue.Proofs.Accounts
import FeedbackQueue.Proofs.Integrity
import FeedbackQueue.Proofs.Listings

/-!
# Safety

Used correctly, a table does not fault.  Correct use is discipline with a few rules for dispatches,
for the root process and for the clock; what else happens between two stretches, and which
allocations fail, does not matter.  Whatever an event needs of the table is there when its turn
comes: processes at work, embryos and CPUs by the invariants of disciplined runs, the place of the
root process because it is asked for once only, and room in every word because the clock and the
next pid have some left.

## Main definitions

* `Machine.Correct` : an event is correct use.
* `Machine.bootings` : the root process, and the requests that make it.

## Main statements

* `Machine.History.bootings_le` : there are no more of them than have been asked for.
* `Machine.safe_of_history` : correct use does not fault.
-/

namespace FeedbackQueue

namespace Machine

variable {P : Params} {m m₁ : Machine P} {e : Event} {p : Progress} {steps : List (Step P)}
  {start : Nat}

/-- Correct use: a disciplined event, by which a CPU looks for a process only while it is idle, and
the root process does not exit.  A scheduler pass looks for a process once interrupts have been
enabled, so `idle` is asked of the answer to `Suspension.enabling`, and not of the request for the
pass. -/
structure Correct (m : Machine P) (e : Event) : Prop where
  disciplined : m.Disciplined e
  idle : ∀ cpu, e.picksFor? = some cpu → cpu < P.cpus ∧ m.table.occupant? cpu = none
  stays : ∀ cpu, e.exits? = some cpu → m.table.occupant? cpu ≠ m.table.root
  allows : m.table.Allows e

/-! ### The root process -/

/-- The number of root processes and of requests that make one. -/
def bootings (m : Machine P) : Nat :=
  m.tasks.countP (·.suspension.boots) + if m.table.root.isSome then 1 else 0

/-- The root process is made by an event to which its image comes. -/
theorem root_or_crowns (h : m.table.Orderly) (hperform : m.perform e = .ok (p, m₁)) :
    m₁.table.root = m.table.root ∨ ∃ i, e.crowns? = some i := by
  obtain ⟨-, -, acts, hfollows, hscript⟩ := of_perform_eq_ok h hperform
  refine hfollows.preserves (I := fun w => w.root = m.table.root ∨ ∃ i, e.crowns? = some i)
    (.inl rfl) fun v a ha he hv => ?_
  rcases Act.root_apply (P := P) he with hsame | ⟨i, name, space, rfl, -⟩
  · rwa [hsame]
  · exact .inr ⟨i, Event.owns_of_script hscript _ ha⟩

/-- Only a request for the root process adds to those that make it. -/
theorem bootings_of_perform_eq_ok (h : m.table.Orderly) (hcan : m.CanHappen e)
    (hperform : m.perform e = .ok (p, m₁)) :
    m₁.bootings ≤ m.bootings + if e.isBoot then 1 else 0 := by
  obtain ⟨-, hafter, acts, -, hscript⟩ := of_perform_eq_ok h hperform
  have htasks : m₁.tasks.countP (·.suspension.boots) =
      (if p.boots then 1 else 0) + (m.others e).countP (·.suspension.boots) := by
    rw [congrArg Machine.tasks hafter, tasks_after, List.countP_append]
    cases p with
    | returned => rfl
    | waiting s => rw [List.countP_singleton]; rfl
  -- the request that is answered is counted before, and the rest of it afterwards
  have hothers : m.tasks.countP (·.suspension.boots) + (if e.isBoot then 1 else 0) =
      (if e.boots then 1 else 0) + (m.others e).countP (·.suspension.boots) := by
    cases e with
    | start request clock => exact Nat.add_comm ..
    | answer task reply clock =>
      have hcount := (List.perm_cons_erase hcan).countP_eq (·.suspension.boots)
      have hnot : (Event.answer task reply clock).isBoot = false := rfl
      rw [hcount, List.countP_cons, hnot, if_neg Bool.false_ne_true, Nat.add_zero]
      exact Nat.add_comm ..
  have hroot : ∀ root : Option Slot, (if root.isSome then 1 else 0) ≤ 1 := by
    intro root
    split <;> decide
  unfold bootings
  rw [htasks]
  rcases root_or_crowns h hperform with hsame | ⟨i, hi⟩
  · rw [hsame]
    have hboots : (if p.boots then 1 else 0) ≤ if e.boots then 1 else 0 := by
      by_cases hp : p.boots = true
      · rw [Event.boots_of_script hscript hp, hp]
      · rw [if_neg hp]
        exact Nat.zero_le _
    omega
  · obtain ⟨he, hp⟩ := Event.boots_of_crowns hscript hi
    have hroot := hroot m₁.table.root
    simp only [he, hp, if_true, Bool.false_eq_true, if_false] at *
    omega

/-- There are no more root processes, and requests that make one, than have been asked for. -/
theorem History.bootings_le (h : m.History steps m₁) (hm : m.table.Orderly) :
    m₁.bootings ≤ m.bootings + steps.countP (·.event.isBoot) := by
  induction h with
  | nil => exact Nat.le_refl _
  | event hrun hcan hperform ih =>
    have hstep := bootings_of_perform_eq_ok (hrun.orderly hm) hcan hperform
    simp only [List.countP_append, List.countP_singleton]
    omega
  | grant hrun hgrants ih =>
    have hroot : _ = _ := (hgrants.steady (hrun.orderly hm)).root
    unfold bootings at *
    rwa [show Table.root _ = Table.root _ from hroot]

/-! ### Correct use -/

/-- A disciplined event is no misuse. -/
theorem Disciplined.careful (h : m.Disciplined e) : m.Careful e := by
  refine .inr ?_
  rintro ⟨cpu, handoff, hback, -, hrunning⟩
  exact (h.reclaims cpu handoff hback).2 hrunning

/-- In disciplined histories running slots stay on CPUs. -/
theorem History.scheduled (h : m.History steps m₁) (hm : m.table.Orderly)
    (hs : m.table.view.Scheduled) (hdisciplined : ∀ s ∈ steps, s.before.Disciplined s.event) :
    m₁.table.view.Scheduled := by
  have hrun : Reaches Careful m m₁ := ⟨steps, h, fun s hs => (hdisciplined s hs).careful⟩
  exact hrun.scheduled hm hs

/-- The table of a correct event admits it, if the root process is asked for once. -/
theorem Correct.admits (h : m.Correct e) (hk : m.Kept) (hb : m.Balanced) (hcan : m.CanHappen e)
    (hboot : m.bootings + (if e.isBoot then 1 else 0) ≤ 1) : m.table.Admits e where
  works cpu hcpu := by
    obtain ⟨i, hw⟩ := h.disciplined.works cpu hcpu
    exact ⟨i, hw.marker, hw.running⟩
  exits := h.stays
  closes cpu hcpu := by
    cases e with
    | start => cases hcpu
    | answer task reply clock =>
      obtain ⟨i, hw, -⟩ := hk.regular.attended.closing task hcan cpu hcpu
      exact ⟨i, hw.marker, hw.running⟩
  picks := h.idle
  reclaims cpu handoff hback := by
    obtain ⟨hout, hleft⟩ := h.disciplined.reclaims cpu handoff hback
    exact ⟨((hb.2 cpu handoff).1 hout).1, hleft⟩
  embryo i hi := by
    cases e with
    | start => cases hi
    | answer task reply clock => exact (hk.ready task hcan).embryo hi
  boots he := by
    have hroot : (if m.table.root.isSome then 1 else 0) = 0 := by
      cases e with
      | start request clock =>
        rw [show (Event.start request clock).isBoot = true from he] at hboot
        unfold bootings at hboot
        simp only [if_true] at hboot
        omega
      | answer task reply clock =>
        have hpos : 0 < m.tasks.countP (·.suspension.boots) :=
          List.countP_pos_iff.2 ⟨task, hcan, he⟩
        unfold bootings at hboot
        omega
    simpa using hroot
  allows := h.allows

/-- A table fits the next reading of the clock, if the next pid and the next sweep do. -/
theorem Kept.fits {now : Nat} (h : m.Kept) (hv : ∀ i, (m.table.record i).Accounted now)
    (hlevels : P.maxPriority < word32) (hpids : m.table.nextPid < word32 - 1)
    (hinterval : now + P.sweepEvery < word64) : m.table.Fits now where
  orderly := h.regular.orderly
  closed := Table.closed_of_tree h.regular.tree
  root_lt r hr := Table.lt_of_stage_ne (h.regular.tree.root r hr).1.started.1
  pids := by omega
  levels := hlevels
  interval := hinterval
  stints i hi := (hv i).lt_of_running (Nat.le_refl now) hi (by omega)

/-- **Correct use does not fault.**  After a run of correct use, in which the root process is asked
for once and the clock does not go back, the next event of correct use comes to its result, as long
as there is another pid and the tick of the next sweep fits in its word.  Nothing that only reads
the table faults, and it passes its audit.  Levels are numbered by words of 32 bits (`hlevels`). -/
theorem safe_of_history {t : Table P} (hcreate : Table.create P start = .ok (.ok t))
    (hlevels : P.maxPriority < word32) (hrun : History { table := t } steps m)
    (hcorrect : ∀ s ∈ steps, s.before.Correct s.event) (hcan : m.CanHappen e)
    (hnext : m.Correct e) (hboot : (steps.map Step.event ++ [e]).countP Event.isBoot ≤ 1)
    (hclock : (start :: steps.map Step.now ++ [e.now]).Pairwise (· ≤ ·))
    (hpids : m.table.nextPid < word32 - 1) (hinterval : e.now + P.sweepEvery < word64) :
    (∃ p m₁, m.perform e = .ok (p, m₁)) ∧ m.table.Readable ∧ m.table.audited = .ok m.table := by
  obtain ⟨ht, hview⟩ := Table.orderly_of_create hcreate
  have hrecord : ∀ i, t.record i = {} := fun i => congrArg (·.record i) hview
  have hdisciplined : ∀ s ∈ steps, s.before.Disciplined s.event := fun s hs =>
    (hcorrect s hs).disciplined
  have hk : m.Kept := hrun.kept (kept_of_create hcreate) hdisciplined
  have hb : m.Balanced := hrun.balanced (kept_of_create hcreate) (balanced_of_create hcreate)
    hdisciplined
  have hs : m.table.view.Scheduled := by
    refine hrun.scheduled ht (fun i hi => ?_) hdisciplined
    change (t.record i).stage = .running at hi
    rw [hrecord] at hi
    cases hi
  have haccounts : ∀ i, (m.table.record i).Accounted e.now := by
    refine hrun.accounted ht (fun i => ?_) (fun s hs cpu left now => ?_) hclock
    · change (t.record i).Accounted start
      rw [hrecord]
      exact ⟨Nat.zero_le _, nofun⟩
    · intro he
      have hallows := (hcorrect s hs).allows
      rw [he] at hallows
      exact hallows
  have hboots : m.bootings + (if e.isBoot then 1 else 0) ≤ 1 := by
    have hle := hrun.bootings_le ht
    have hfresh : bootings { table := t } = 0 := by
      have hroot : t.root = none := congrArg View.root hview
      simp [bootings, hroot]
    rw [List.countP_append, List.countP_map, List.countP_singleton] at hboot
    change steps.countP (·.event.isBoot) + _ ≤ 1 at hboot
    omega
  have hfits := hk.fits haccounts hlevels hpids hinterval
  refine ⟨?_, Table.readable_of_closed hfits.closed hk.regular.orderly.sound, ?_⟩
  · obtain ⟨⟨p, m₁⟩, hperform⟩ := ends_of_admits hfits (hnext.admits hk hb hcan hboots)
    exact ⟨p, m₁, hperform⟩
  · rw [Table.audited, hk.regular.orderly.sound.audit_eq_ok_iff.2 hs]

/-- The root process is made, gets the only CPU, and yields it. -/
theorem safe_of_yielding : ∃ (t : Table ⟨1, 1, 2, 100, 1, true⟩) (steps : List (Step _))
    (m : Machine _), Table.create _ 0 = .ok (.ok t) ∧ History { table := t } steps m ∧
      steps.length = 4 ∧ (∃ p m₁, m.perform (.start (.yield 0) 5) = .ok (p, m₁)) ∧
      m.table.Readable ∧ m.table.audited = .ok m.table := by
  let es : List Event := [.start (.boot "" []) 0,
    .answer ⟨none, .allocating 0 (.root "" [])⟩ (some ⟨0⟩) 0,
    .answer ⟨none, .mapping 0 "" []⟩ (some ⟨0⟩) 0, .start (.dispatch 0) 3]
  obtain ⟨t, hcreate, hleads⟩ : ∃ t : Table ⟨1, 1, 2, 100, 1, true⟩,
      Table.create _ 0 = .ok (.ok t) ∧
        Leads Correct (fun m => m.Correct (.start (.yield 0) 5) ∧ m.table.nextPid = 2) es
          { table := t } := by
    have hnone {m : Machine ⟨1, 1, 2, 100, 1, true⟩} {e : Event} (hcpu : e.cpu? = none)
        (hback : e.givesBack = none) : m.Disciplined e :=
      (considerate_of_none hcpu hback).disciplined
    refine ⟨_, rfl, trivial, ⟨hnone rfl rfl, nofun, nofun, trivial⟩, _, _, rfl, ?_⟩
    refine ⟨List.mem_cons_self, ⟨hnone rfl rfl, nofun, nofun, trivial⟩, _, _, rfl, ?_⟩
    refine ⟨List.mem_cons_self, ⟨hnone rfl rfl, nofun, nofun, trivial⟩, _, _, rfl, ?_⟩
    refine ⟨trivial, ⟨hnone rfl rfl, ?_, nofun, trivial⟩, _, _, rfl, ?_⟩
    · rintro cpu ⟨⟩
      exact ⟨by decide, rfl⟩
    · exact ⟨⟨disciplined_of_works (i := 0) rfl rfl ⟨rfl, rfl, rfl⟩ nofun, nofun, nofun, trivial⟩,
        rfl⟩
  obtain ⟨steps, m, hrun, hevents, hcorrect, hnext, hpids⟩ := hleads.exists_history
  have hnows : steps.map Step.now = [0, 0, 0, 3] := by
    rw [show Step.now = Event.now ∘ Step.event (P := ⟨1, 1, 2, 100, 1, true⟩) from rfl,
      ← List.map_map, hevents]
    rfl
  have hsafe := safe_of_history (e := .start (.yield 0) 5) hcreate (by decide) hrun hcorrect
    trivial hnext (by rw [hevents]; decide) (by rw [hnows]; decide) (by rw [hpids]; decide)
    (by decide)
  refine ⟨t, steps, m, hcreate, hrun, ?_, hsafe⟩
  rw [← List.length_map, hevents]
  rfl

end Machine

end FeedbackQueue
