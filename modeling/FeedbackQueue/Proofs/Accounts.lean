import FeedbackQueue.Proofs.Histories

/-!
# Accounts

Three readings of the clock are kept for a process: its start, its last dispatch, and the total of
its stints on a CPU.  A stint begins in a dispatch and is added to the total when the process leaves
the CPU by a yield, a sleep or an exit; nothing else changes any of them once the process has been
allocated.  On a clock that does not go back nobody has been on a CPU for longer than it has been
there, so a total never overflows.

## Main definitions

* `Process.Timeless` : a change that leaves the readings of a process alone.
* `Act.times?` : the process whose readings an act changes.
* `Process.Accounted` : a process has spent no more ticks on a CPU than have passed.

## Main statements

* `Act.timeless_apply` : an act changes the readings of one process at most.
* `Machine.History.accounted` : nobody overdraws its account on a clock that does not go back.
-/

namespace FeedbackQueue

namespace Process

variable {p q r : Process} {clock now : Nat}

/-- A change of a record that leaves its readings of the clock alone. -/
structure Timeless (p q : Process) : Prop where
  startedAt : q.startedAt = p.startedAt
  cpuTicks : q.cpuTicks = p.cpuTicks
  dispatchedAt : q.dispatchedAt = p.dispatchedAt

theorem Timeless.refl (p : Process) : p.Timeless p := ⟨rfl, rfl, rfl⟩

theorem Timeless.trans (h : p.Timeless q) (h' : q.Timeless r) : p.Timeless r where
  startedAt := h'.startedAt.trans h.startedAt
  cpuTicks := h'.cpuTicks.trans h.cpuTicks
  dispatchedAt := h'.dispatchedAt.trans h.dispatchedAt

theorem Steady.timeless (h : p.Steady q) : p.Timeless q := ⟨h.startedAt, h.cpuTicks, h.dispatchedAt⟩

theorem timeless_charge {refill : Int} : p.Timeless (p.charge refill now) := by
  obtain ⟨_, _, e, -⟩ := p.charge_eq refill now
  rw [e]
  exact ⟨rfl, rfl, rfl⟩

theorem timeless_promote {P : Params} : p.Timeless (p.promote P) := by
  obtain ⟨_, _, e⟩ := p.promote_eq (P := P)
  rw [e]
  exact ⟨rfl, rfl, rfl⟩

theorem timeless_enter {stage : Stage} : p.Timeless (p.enter stage) := ⟨rfl, rfl, rfl⟩

/-- The name of the root process is cut to its width, which must not be computed here. -/
theorem timeless_crown {name : String} {space : AddressSpace} :
    p.Timeless (p.crown name space) := by
  constructor <;> simp only [crown, rename]

/-- The ticks that a process has spent on a CPU have passed since its start, up to its last dispatch
if it is running. -/
structure Accounted (clock : Nat) (p : Process) : Prop where
  total : p.startedAt + p.cpuTicks ≤ clock
  stint : p.stage = .running → p.startedAt + p.cpuTicks ≤ p.dispatchedAt ∧ p.dispatchedAt ≤ clock

namespace Accounted

theorem mono (h : p.Accounted clock) (hle : clock ≤ now) : p.Accounted now where
  total := Nat.le_trans h.total hle
  stint hrunning := ⟨(h.stint hrunning).1, Nat.le_trans (h.stint hrunning).2 hle⟩

theorem timeless (h : p.Accounted clock) (hq : p.Timeless q)
    (hrunning : q.stage = .running → p.stage = .running) : q.Accounted clock where
  total := by
    rw [hq.startedAt, hq.cpuTicks]
    exact h.total
  stint hs := by
    rw [hq.startedAt, hq.cpuTicks, hq.dispatchedAt]
    exact h.stint (hrunning hs)

/-- A stint ends. -/
theorem bill (h : p.Accounted clock) (hle : clock ≤ now) (hrunning : p.stage = .running)
    (hq : p.Timeless q) (hleft : q.stage ≠ .running) : (q.bill now).Accounted now := by
  obtain ⟨hbefore, hdispatched⟩ := h.stint hrunning
  refine ⟨?_, fun hs => absurd hs hleft⟩
  simp only [Process.bill, hq.startedAt, hq.cpuTicks, hq.dispatchedAt]
  omega

/-- A stint begins. -/
theorem dispatch (h : p.Accounted clock) (hle : clock ≤ now) : (p.dispatch now).Accounted now where
  total := Nat.le_trans h.total hle
  stint _ := ⟨Nat.le_trans h.total hle, Nat.le_refl now⟩

/-- A stint that has not ended fits in a word in which the clock does. -/
theorem lt_of_running (h : p.Accounted clock) (hle : clock ≤ now) (hrunning : p.stage = .running)
    {limit : Nat} (hnow : now < limit) : p.cpuTicks + (now - p.dispatchedAt) < limit := by
  obtain ⟨hbefore, hdispatched⟩ := h.stint hrunning
  omega

end Accounted

end Process

/-! ### Readings -/

namespace View

variable {P : Params} {v w : View} {i j : Slot} {now : Nat}

theorem timeless_sweep : (v.record i).Timeless ((v.sweep P).record i) := by
  unfold sweep
  dsimp only
  split
  · exact Process.timeless_promote
  · exact .refl _

theorem timeless_sweepIfDue : (v.record i).Timeless ((v.sweepIfDue P now).record i) := by
  unfold sweepIfDue
  split
  · exact timeless_sweep
  · exact .refl _

theorem timeless_wakeParent {p : Process} : (v.record i).Timeless ((v.wakeParent p).record i) :=
  (steady_wakeParent.record i).timeless

theorem timeless_adopt : (v.record i).Timeless ((v.adopt P j).record i) := by
  obtain ⟨_, _, _, e, -⟩ := v.adopt_record (P := P) j i
  rw [e]
  exact ⟨rfl, rfl, rfl⟩

theorem timeless_reclaim {cpu : Cpu} :
    (v.record i).Timeless ((v.reclaim P cpu j now).record i) := by
  have hmark : (v.record i).Timeless ((v.mark cpu none).record i) := .refl _
  unfold reclaim
  refine hmark.trans (Process.Timeless.trans ?_ timeless_sweepIfDue)
  split
  · exact timeless_wakeParent
  · exact .refl _

/-- A change of one record that leaves its readings alone. -/
theorem timeless_update {q : Process} (h : (v.record j).Timeless q) :
    (v.record i).Timeless (Function.update v.record j q i) := by
  rw [Function.update_apply]
  split
  · subst j
    exact h
  · exact .refl _

theorem timeless_revise {f : Process → Process} (h : ∀ p : Process, p.Timeless (f p)) :
    (v.record i).Timeless ((v.revise j f).record i) :=
  timeless_update (h _)

theorem timeless_shift {f : Process → Process} (h : ∀ p : Process, p.Timeless (f p)) :
    (v.record i).Timeless ((v.shift j f).record i) :=
  timeless_update (h _)

theorem timeless_assign {priority : Nat} :
    (v.record i).Timeless ((v.assign P j priority).record i) := by
  unfold assign
  dsimp only
  split
  · exact timeless_shift fun _ => ⟨rfl, rfl, rfl⟩
  · exact timeless_revise fun _ => ⟨rfl, rfl, rfl⟩

/-- A process that leaves its CPU has not overdrawn its account by its last stint. -/
theorem accounted_leave {clock : Nat} {f : Process → Process} (h : (v.record i).Accounted clock)
    (hle : clock ≤ now) (hrunning : (v.record i).stage = .running)
    (hf : ∀ p : Process, p.Timeless (f p)) (hstage : ∀ p : Process, (f p).stage ≠ .running) :
    ((v.leave P i now f).record i).Accounted now := by
  rw [leave_record, Function.update_self]
  exact h.bill hle hrunning (Process.timeless_charge.trans (hf _)) (hstage _)

/-- A process that exits is charged last. -/
theorem retire_record_bill (now : Nat) : ∃ u : View, (∀ j, (v.record j).Timeless (u.record j)) ∧
    (u.record i).stage = .zombie ∧
    (v.retire P i now).record = Function.update u.record i ((u.record i).bill now) := by
  refine ⟨_, fun j => ?_, ?_, rfl⟩
  · have hadopt := timeless_wakeParent.trans
      (timeless_adopt (P := P) (v := v.wakeParent (v.record i)) (i := j) (j := i))
    exact hadopt.trans ((timeless_shift fun _ => Process.timeless_enter).trans
      (timeless_revise (f := fun p => { p with size := 0 }) fun _ => ⟨rfl, rfl, rfl⟩))
  · simp [Process.enter]

end View

namespace Act

variable {P : Params} {v : View} {a : Act} {i : Slot} {clock now : Nat} {d : Deed}

/-- The process whose readings an act changes. -/
def times? : Act → Option Slot
  | conceive i _ | retire _ i _ | await _ i _ | park _ i _ _ | yield _ i _ | depart _ i _ => some i
  | dispatch _ handoff _ => some handoff.slot
  | _ => none

/-- **An act changes the readings of one process at most.** -/
theorem timeless_apply (h : a.Enabled v) (hi : a.times? ≠ some i) :
    (v.record i).Timeless ((a.apply P v).record i) := by
  have hne : ∀ {j : Slot}, some j ≠ some i → i ≠ j := fun h hij => h (congrArg some hij.symm)
  cases a with
  | conceive j now =>
    rw [record_of_writes (a := .conceive j now) rfl (hne hi)]
    exact .refl _
  | discard j =>
    rw [apply, View.discard_record]
    exact View.timeless_update ⟨rfl, rfl, rfl⟩
  | abandon j =>
    rw [apply, View.abandon_record]
    exact View.timeless_update ⟨rfl, rfl, rfl⟩
  | crown j name space =>
    rw [apply, View.crown_record]
    exact View.timeless_update (Process.timeless_crown.trans Process.timeless_enter)
  | launch j plan space files cwd =>
    rw [apply, View.launch_record]
    exact View.timeless_update ⟨rfl, rfl, rfl⟩
  | reap cpu me j =>
    rw [apply, View.reap_record]
    exact View.timeless_update ⟨rfl, rfl, rfl⟩
  | retire cpu j now =>
    obtain ⟨u, hu, -, e⟩ := v.retire_record_bill (P := P) (i := j) now
    rw [apply, e, Function.update_of_ne (hne hi)]
    exact hu i
  | await cpu j now | park cpu j channel now | yield cpu j now =>
    rw [apply, View.leave_record, Function.update_of_ne (hne hi)]
    exact .refl _
  | depart cpu j now =>
    rw [apply, View.depart, View.revise_record, Function.update_of_ne (hne hi)]
    exact .refl _
  | dispatch cpu handoff now =>
    have hrecord : ((v.dispatch handoff.slot cpu now).record i) = v.record i :=
      Function.update_of_ne (hne hi) ..
    rw [apply, hrecord]
    exact .refl _
  | reclaim => exact View.timeless_reclaim
  | sweep => exact View.timeless_sweep
  | sweepIfDue => exact View.timeless_sweepIfDue
  | assign => exact View.timeless_assign
  | _ => exact ((steady_apply h rfl).record i).timeless

/-- Nobody begins to run but in a dispatch. -/
theorem running_of_apply (h : a.Enabled v) (hrunning : ((a.apply P v).record i).stage = .running)
    (hi : a.times? ≠ some i) : (v.record i).stage = .running := by
  by_cases hquiet : a.isQuiet = true
  · exact (quiet_apply h hquiet).2 i hrunning
  cases a with
  | dispatch cpu handoff now =>
    have hrecord : ((v.dispatch handoff.slot cpu now).record i) = v.record i :=
      Function.update_of_ne (fun hij => hi (congrArg some hij.symm)) ..
    rwa [apply, hrecord] at hrunning
  | reclaim => exact View.reclaim_running_iff.1 hrunning
  | _ => exact absurd rfl hquiet

/-- Nobody overdraws its account, after an act at a later reading of the clock. -/
theorem accounted_apply (h : a.Enabled v) (hv : ∀ i, (v.record i).Accounted clock)
    (hle : clock ≤ now) (hnow : ∀ d reading, a.deed? = some d → d.reading? = some reading →
      reading = now) (hdepart : ∀ cpu j left, a ≠ .depart cpu j left) :
    ((a.apply P v).record i).Accounted now := by
  by_cases hi : a.times? = some i
  · cases a with
    | conceive j now' =>
      cases hi
      obtain rfl : now' = now := hnow _ _ rfl rfl
      have hrecord : (v.conceive P i now').record i = (v.record i).conceive P v.nextPid now' :=
        Function.update_self ..
      rw [apply, hrecord]
      exact ⟨Nat.le_refl _, by rintro ⟨⟩⟩
    | retire cpu j now' =>
      cases hi
      obtain rfl : now' = now := hnow _ _ rfl rfl
      obtain ⟨u, hu, hzombie, e⟩ := v.retire_record_bill (P := P) (i := i) now'
      rw [apply, e, Function.update_self]
      exact (hv i).bill hle h.2 (hu i) (by rw [hzombie]; decide)
    | await cpu j now' =>
      cases hi
      obtain rfl : now' = now := hnow _ _ rfl rfl
      rw [apply]
      refine View.accounted_leave (hv i) hle h.2.1 (fun _ => ⟨rfl, rfl, rfl⟩) fun _ => ?_
      rintro ⟨⟩
    | park cpu j channel now' =>
      cases hi
      obtain rfl : now' = now := hnow _ _ rfl rfl
      rw [apply]
      refine View.accounted_leave (hv i) hle h.2 (fun _ => ⟨rfl, rfl, rfl⟩) fun _ => ?_
      rintro ⟨⟩
    | yield cpu j now' =>
      cases hi
      obtain rfl : now' = now := hnow _ _ rfl rfl
      rw [apply]
      refine View.accounted_leave (hv i) hle h.2 (fun _ => ⟨rfl, rfl, rfl⟩) fun _ => ?_
      rintro ⟨⟩
    | depart cpu j left => exact absurd rfl (hdepart cpu j left)
    | dispatch cpu handoff now' =>
      cases hi
      obtain rfl : now' = now := hnow _ _ rfl rfl
      have hrecord : (v.dispatch handoff.slot cpu now').record handoff.slot =
          (v.record handoff.slot).dispatch now' := Function.update_self ..
      rw [apply, hrecord]
      exact (hv _).dispatch hle
    | _ => cases hi
  · exact ((hv i).timeless (timeless_apply h hi) fun hs => running_of_apply h hs hi).mono hle

end Act

/-! ### Runs -/

/-- To switch away is left to the request for it. -/
theorem Event.ne_depart_of_owns {e : Event} {a : Act} (h : e.Owns a)
    (hswitch : ∀ cpu left now, e ≠ .start (.switch cpu left) now) :
    ∀ cpu i left, a ≠ .depart cpu i left := by
  rintro cpu i left rfl
  obtain ⟨now, rfl⟩ := h
  exact hswitch cpu left now rfl

namespace Machine

variable {P : Params} {m m₁ : Machine P} {e : Event} {p : Progress} {steps : List (Step P)}
  {start clock : Nat}

/-- The reading of the clock that a step is made at. -/
def Step.now (s : Step P) : Nat := s.event.now

theorem accounted_of_steady {v w : View} (h : v.Steady w)
    (hv : ∀ i, (v.record i).Accounted clock) : ∀ i, (w.record i).Accounted clock := fun i =>
  (hv i).timeless (h.record i).timeless (h.record i).running.1

/-- Nobody overdraws its account in an event at a later reading of the clock, unless the event
switches away from a process that has done so before. -/
theorem accounted_of_perform_eq_ok (h : m.table.Orderly)
    (hv : ∀ i, (m.table.record i).Accounted clock) (hle : clock ≤ e.now)
    (hswitch : ∀ cpu left now, e ≠ .start (.switch cpu left) now)
    (hperform : m.perform e = .ok (p, m₁)) : ∀ i, (m₁.table.record i).Accounted e.now := by
  cases does_of_perform_eq_ok h hperform with
  | steady _ hsteady => exact fun i => (accounted_of_steady hsteady hv i).mono hle
  | deed hdeed ha howns hu he hw =>
    refine accounted_of_steady hw fun i => Act.accounted_apply he (accounted_of_steady hu hv) hle ?_
      (Event.ne_depart_of_owns howns hswitch)
    intro d reading hd hreading
    cases ha.symm.trans hd
    exact Event.reading_of_deed hdeed hreading

/-- **Nobody overdraws its account on a clock that does not go back.** -/
theorem History.accounted (h : m.History steps m₁) (hm : m.table.Orderly)
    (hv : ∀ i, (m.table.record i).Accounted start)
    (hswitch : ∀ s ∈ steps, ∀ cpu left now, s.event ≠ .start (.switch cpu left) now)
    (hclock : (start :: steps.map Step.now ++ [clock]).Pairwise (· ≤ ·)) :
    ∀ i, (m₁.table.record i).Accounted clock := by
  induction h generalizing clock with
  | nil =>
    have hle : start ≤ clock := List.rel_of_pairwise_cons hclock List.mem_cons_self
    exact fun i => (hv i).mono hle
  | @event past _ _ e p hrun _ hperform ih =>
    obtain ⟨hpast, hlast⟩ := List.forall_mem_append.1 hswitch
    rw [List.map_append, ← List.cons_append] at hclock
    obtain ⟨hbefore, -, hle⟩ := List.pairwise_append.1 hclock
    have hnow : e.now ≤ clock := hle e.now (List.mem_append_right _ List.mem_cons_self) clock
      List.mem_cons_self
    have hafter := accounted_of_perform_eq_ok (hrun.orderly hm) (ih hpast hbefore) (Nat.le_refl _)
      (hlast _ List.mem_cons_self) hperform
    exact fun i => (hafter i).mono hnow
  | grant hrun hgrants ih =>
    exact accounted_of_steady (hgrants.steady (hrun.orderly hm)) (ih hswitch hclock)

end Machine

end FeedbackQueue
