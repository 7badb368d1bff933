import FeedbackQueue.Proofs.Accounts
import FeedbackQueue.Proofs.Endings
import FeedbackQueue.Proofs.Standing
import Mathlib.Algebra.Group.Action.Defs
import Mathlib.Algebra.Order.BigOperators.Group.Finset

/-!
# Stints

A stint of a process on a CPU begins when the CPU dispatches it, and ends when it leaves the running
stage in a yield, a sleep or an exit.  The ticks of a process are exactly those of its stints that
have ended: each is charged once, whichever way it ends and wherever the next one begins.  The
stints of one process follow one another, and so do those of one CPU.  So on a clock that does not
go back neither of them adds up to more ticks than have passed.

## Main definitions

* `Stint`, `Shift` : a time on a CPU, its begin and its end.
* `Machine.shifts`, `Machine.stints` : those of a list of steps.
* `Process.Records` : the ticks of a process are those of its shifts.
* `View.Charged` : the stints on a CPU follow one another.
* `Machine.Strict` : a disciplined event, the switch away included.

## Main statements

* `Act.clocks_apply` : the shift of an act, and what it does to the readings of a process.
* `Act.charged_apply` : what it does to the stints on a CPU.
* `Machine.billed_of_history` : the accounts of processes and CPUs are exact.
-/

namespace FeedbackQueue

/-- A time that a process has spent on a CPU. -/
structure Stint where
  /-- The CPU. -/
  cpu : Cpu
  /-- The slot of the process. -/
  slot : Slot
  /-- The reading of the clock at the dispatch. -/
  since : Nat
  /-- The reading of the clock when the process left the running stage. -/
  till : Nat

/-- What begins or ends a stint. -/
inductive Shift where
  /-- The process in a slot is dispatched. -/
  | on (i : Slot) (now : Nat)
  /-- A stint ends. -/
  | off (stint : Stint)

namespace Stint

/-- The length of a stint. -/
def length (s : Stint) : Nat := s.till - s.since

/-- The begin of a stint and its end. -/
def shifts (s : Stint) : List Shift := [.on s.slot s.since, .off s]

/-- The length of stints together. -/
def total (stints : List Stint) : Nat := (stints.map length).sum

variable {xs ys : List Stint} {s : Stint}

theorem total_cons : total (s :: xs) = s.length + total xs := rfl

theorem total_append : total (xs ++ ys) = total xs + total ys := by
  rw [total, List.map_append, List.sum_append, total, total]

theorem total_singleton : total [s] = s.length := Nat.add_zero _

/-- Stints lie between two readings of the clock, one after the other. -/
def Follow (stop : Nat) : Nat → List Stint → Prop
  | start, [] => start ≤ stop
  | start, s :: rest => start ≤ s.since ∧ s.since ≤ s.till ∧ Follow stop s.till rest

theorem Follow.mono {start stop stop' : Nat} (h : Follow stop start xs) (hle : stop ≤ stop') :
    Follow stop' start xs := by
  induction xs generalizing start with
  | nil => exact Nat.le_trans h hle
  | cons s xs ih => exact ⟨h.1, h.2.1, ih h.2.2⟩

theorem Follow.append {start : Nat} (h : Follow s.since start xs) (hs : s.since ≤ s.till) :
    Follow s.till start (xs ++ [s]) := by
  induction xs generalizing start with
  | nil => exact ⟨h, hs, Nat.le_refl _⟩
  | cons x xs ih => exact ⟨h.1, h.2.1, ih h.2.2⟩

/-- Stints that follow one another are not longer than the time that has passed. -/
theorem Follow.total_le {start stop : Nat} (h : Follow stop start xs) :
    start + total xs ≤ stop := by
  induction xs generalizing start with
  | nil => exact h
  | cons s xs ih =>
    obtain ⟨hsince, htill, hrest⟩ := h
    have hle := ih hrest
    rw [total_cons, length]
    omega

/-- Stints add up CPU by CPU. -/
theorem total_eq_sum {n : Nat} (h : ∀ s ∈ xs, s.cpu < n) :
    total xs = ∑ cpu ∈ Finset.range n, total (xs.filter (·.cpu = cpu)) := by
  induction xs with
  | nil => exact Finset.sum_const_zero.symm
  | cons s xs ih =>
    obtain ⟨hs, hxs⟩ := List.forall_mem_cons.1 h
    have hcons : ∀ cpu, total ((s :: xs).filter (·.cpu = cpu)) =
        (if s.cpu = cpu then s.length else 0) + total (xs.filter (·.cpu = cpu)) := by
      intro cpu
      by_cases hcpu : s.cpu = cpu
      · simp [hcpu, total]
      · simp [hcpu]
    calc total (s :: xs) = s.length + total xs := total_cons
      _ = (∑ cpu ∈ Finset.range n, if s.cpu = cpu then s.length else 0) +
          ∑ cpu ∈ Finset.range n, total (xs.filter (·.cpu = cpu)) := by
        rw [Finset.sum_ite_eq, if_pos (Finset.mem_range.2 hs), ih hxs]
      _ = ∑ cpu ∈ Finset.range n, total ((s :: xs).filter (·.cpu = cpu)) := by
        simp only [hcons, Finset.sum_add_distrib]

end Stint

namespace Shift

/-- The slot of the process that begins or ends a stint. -/
def slot : Shift → Slot
  | on i _ => i
  | off s => s.slot

/-- The stint that a shift ends. -/
def stint? : Shift → Option Stint
  | on _ _ => none
  | off s => some s

/-- The stints that have ended. -/
def ended (shifts : List Shift) : List Stint := shifts.filterMap stint?

variable {shifts : List Shift}

theorem ended_append_on {i : Slot} {now : Nat} : ended (shifts ++ [on i now]) = ended shifts := by
  simp [ended, stint?]

theorem ended_append_off {stint : Stint} :
    ended (shifts ++ [off stint]) = ended shifts ++ [stint] := by
  simp [ended, stint?]

end Shift

/-- The shift that a deed is. -/
def Deed.shift? (v : View) : Deed → Option Shift
  | dispatch _ handoff now => some (.on handoff.slot now)
  | leave cpu now | exit cpu now => (v.marker cpu).map fun i =>
    .off ⟨cpu, i, (v.record i).dispatchedAt, now⟩
  | _ => none

/-! ### Processes -/

namespace Process

variable {p q : Process} {i : Slot} {shift : Option Shift} {shifts : List Shift}

/-- What a shift, if there is any, does to the readings of the process in a slot. -/
inductive Clocks (i : Slot) (shift : Option Shift) (p q : Process) : Prop
  /-- It is that of another process. -/
  | stays (hslot : ∀ s, shift = some s → s.slot ≠ i) (htimes : p.Timeless q)
      (hrunning : q.stage = .running ↔ p.stage = .running)
  /-- A stint begins. -/
  | begins (hshift : shift = some (.on i q.dispatchedAt)) (hbefore : p.stage ≠ .running)
      (hafter : q.stage = .running) (hticks : q.cpuTicks = p.cpuTicks)
  /-- A stint ends. -/
  | ends (stint : Stint) (hshift : shift = some (.off stint)) (hslot : stint.slot = i)
      (hsince : stint.since = p.dispatchedAt) (hbefore : p.stage = .running)
      (hafter : q.stage ≠ .running) (hticks : q.cpuTicks = p.cpuTicks + stint.length)

theorem Steady.clocks (h : p.Steady q) : p.Clocks i none q :=
  .stays nofun h.timeless h.running

theorem Clocks.of_steady {p' q' : Process} (h : p.Clocks i shift q) (hp : p'.Steady p)
    (hq : q.Steady q') : p'.Clocks i shift q' := by
  cases h with
  | stays hslot htimes hrunning =>
    exact .stays hslot (hp.timeless.trans (htimes.trans hq.timeless))
      (hq.running.trans (hrunning.trans hp.running))
  | begins hshift hbefore hafter hticks =>
    exact .begins (hq.dispatchedAt ▸ hshift) (mt hp.running.2 hbefore) (hq.running.2 hafter)
      (hq.cpuTicks.trans (hticks.trans hp.cpuTicks))
  | ends stint hshift hslot hsince hbefore hafter hticks =>
    refine .ends stint hshift hslot (hsince.trans hp.dispatchedAt) (hp.running.1 hbefore)
      (mt hq.running.1 hafter) ?_
    rw [hq.cpuTicks, hticks, hp.cpuTicks]

/-- The ticks of the process in a slot are those of its shifts: of stints that have ended, one after
the other, and of one that lasts exactly if it is running. -/
structure Records (i : Slot) (shifts : List Shift) (p : Process) : Prop where
  shifts_eq : shifts = (Shift.ended shifts).flatMap Stint.shifts ++
    if p.stage = .running then [.on i p.dispatchedAt] else []
  cpuTicks_eq : p.cpuTicks = Stint.total (Shift.ended shifts)

theorem Records.of_steady (h : p.Records i shifts) (hq : p.Steady q) : q.Records i shifts where
  shifts_eq := by
    rw [if_congr hq.running rfl rfl, hq.dispatchedAt]
    exact h.shifts_eq
  cpuTicks_eq := hq.cpuTicks.trans h.cpuTicks_eq

/-- A shift is recorded. -/
theorem Records.clocks (h : p.Records i shifts) (hq : p.Clocks i shift q) :
    q.Records i (shifts ++ shift.toList.filter (·.slot = i)) := by
  cases hq with
  | stays hslot htimes hrunning =>
    have hnone : shift.toList.filter (·.slot = i) = [] := by
      refine List.filter_eq_nil_iff.2 fun s hs => ?_
      simpa using hslot s (Option.mem_toList.1 hs)
    rw [hnone, List.append_nil]
    refine ⟨?_, htimes.cpuTicks.trans h.cpuTicks_eq⟩
    rw [if_congr hrunning rfl rfl, htimes.dispatchedAt]
    exact h.shifts_eq
  | begins hshift hbefore hafter hticks =>
    have hpairs := h.shifts_eq
    rw [if_neg hbefore, List.append_nil] at hpairs
    have hnew : shift.toList.filter (·.slot = i) = [.on i q.dispatchedAt] := by
      simp [hshift, Shift.slot]
    rw [hnew]
    refine ⟨?_, ?_⟩
    · rw [Shift.ended_append_on, if_pos hafter, ← hpairs]
    · rw [Shift.ended_append_on, hticks, h.cpuTicks_eq]
  | ends stint hshift hslot hsince hbefore hafter hticks =>
    have hpairs := h.shifts_eq
    rw [if_pos hbefore] at hpairs
    have hnew : shift.toList.filter (·.slot = i) = [.off stint] := by
      simp [hshift, Shift.slot, hslot]
    rw [hnew]
    refine ⟨?_, ?_⟩
    · rw [Shift.ended_append_off, if_neg hafter, List.append_nil]
      calc shifts ++ [Shift.off stint]
        _ = (Shift.ended shifts).flatMap Stint.shifts ++ [Shift.on i p.dispatchedAt] ++
            [Shift.off stint] := congrArg (· ++ _) hpairs
        _ = (Shift.ended shifts ++ [stint]).flatMap Stint.shifts := by
          simp [Stint.shifts, hslot, hsince]
    · rw [Shift.ended_append_off, Stint.total_append, Stint.total_singleton, hticks,
        h.cpuTicks_eq]

/-- The ticks of a process, with those of a stint that lasts, have passed since its start. -/
theorem Accounted.add_le {clock : Nat} (h : p.Accounted clock) :
    p.startedAt + (p.cpuTicks + if p.stage = .running then clock - p.dispatchedAt else 0) ≤
      clock := by
  have htotal := h.total
  split
  · have hstint := h.stint ‹_›
    omega
  · exact htotal

/-- A process that is charged for its stint and leaves the running stage. -/
theorem clocks_bill {cpu : Cpu} {now : Nat} (hq : p.Timeless q) (hbefore : p.stage = .running)
    (hafter : q.stage ≠ .running) :
    p.Clocks i (some (.off ⟨cpu, i, p.dispatchedAt, now⟩)) (q.bill now) := by
  refine .ends _ rfl rfl rfl hbefore hafter ?_
  simp only [bill, Stint.length, hq.cpuTicks, hq.dispatchedAt]

end Process

namespace Act

variable {P : Params} {v : View} {a : Act} {i : Slot} {d : Deed} {s : Shift}

/-- The shift of an act is that of the process whose readings it changes. -/
theorem times_of_shift (h : a.Enabled v) (hd : a.deed? = some d) (hs : d.shift? v = some s) :
    a.times? = some s.slot := by
  cases a with
  | retire cpu j now | await cpu j now | park cpu j _ now | yield cpu j now =>
    cases hd
    have hmarker : v.marker cpu = some j := h.1
    simp only [Deed.shift?, hmarker, Option.map_some, Option.some.injEq] at hs
    subst hs
    rfl
  | dispatch cpu handoff now =>
    cases hd
    cases hs
    rfl
  | conceive | discard | abandon | crown | launch | reap | depart | reclaim | sweep | sweepIfDue
  | assign =>
    cases hd
    cases hs
  | giveStack | copy | surrender | wake | rouse | kill | setUid | setGid => cases hd

/-- Whoever is running goes on unless the act changes its readings. -/
theorem running_of_times (h : a.Enabled v) (hrunning : (v.record i).stage = .running)
    (hi : a.times? ≠ some i) : ((a.apply P v).record i).stage = .running := by
  refine running_apply h hrunning fun hmoves => hi ?_
  have hends := ends_of_moves h hrunning hmoves
  cases a <;> first | exact hends | cases hends

/-- **The shift of an act, and what it does to the readings of a process.** -/
theorem clocks_apply (h : a.Enabled v) (hd : a.deed? = some d)
    (hconceive : ∀ now, a ≠ .conceive i now) (hdepart : ∀ cpu now, a ≠ .depart cpu i now) :
    (v.record i).Clocks i (d.shift? v) ((a.apply P v).record i) := by
  by_cases hi : a.times? = some i
  · cases a with
    | retire cpu j now =>
      cases hi
      cases hd
      obtain ⟨hmarker, hrunning⟩ := h
      obtain ⟨u, hu, hzombie, e⟩ := v.retire_record_bill (P := P) (i := i) now
      rw [apply, e, Function.update_self, Deed.shift?, hmarker]
      exact Process.clocks_bill (hu i) hrunning (by rw [hzombie]; decide)
    | await cpu j now | park cpu j channel now | yield cpu j now =>
      cases hi
      cases hd
      have hmarker : v.marker cpu = some i := h.1
      have hrunning : (v.record i).stage = .running := by
        first | exact h.2 | exact h.2.1
      rw [apply, View.leave_record, Function.update_self, Deed.shift?, hmarker]
      exact Process.clocks_bill (Process.timeless_charge.trans ⟨rfl, rfl, rfl⟩) hrunning
        (by rintro ⟨⟩)
    | dispatch cpu handoff now =>
      cases hi
      cases hd
      have hrunnable : (v.record handoff.slot).stage = .runnable := h.2.1
      have hrecord : (v.dispatch handoff.slot cpu now).record handoff.slot =
          (v.record handoff.slot).dispatch now := Function.update_self ..
      rw [apply, hrecord]
      refine .begins rfl ?_ rfl rfl
      rw [hrunnable]
      decide
    | conceive j now =>
      cases hi
      exact absurd rfl (hconceive now)
    | depart cpu j now =>
      cases hi
      exact absurd rfl (hdepart cpu now)
    | _ => cases hi
  · refine .stays ?_ (timeless_apply h hi)
      ⟨fun hs => running_of_apply h hs hi, fun hs => running_of_times h hs hi⟩
    rintro s hs rfl
    exact hi (times_of_shift h hd hs)

end Act

/-! ### CPUs -/

namespace View

variable {v w : View} {cpu : Cpu} {i : Slot} {d : Deed} {start clock now : Nat}
  {stints : List Stint}

/-- The stints on a CPU follow one another, up to the last dispatch if its process is running. -/
structure Charged (start clock : Nat) (cpu : Cpu) (stints : List Stint) (v : View) : Prop where
  past : Stint.Follow clock start stints
  last : ∀ i, v.marker cpu = some i → (v.record i).stage = .running →
    Stint.Follow (v.record i).dispatchedAt start stints

theorem Charged.mono (h : v.Charged start clock cpu stints) (hle : clock ≤ now) :
    v.Charged start now cpu stints := ⟨h.past.mono hle, h.last⟩

theorem Charged.of_steady (h : v.Charged start clock cpu stints) (hw : v.Steady w) :
    w.Charged start clock cpu stints where
  past := h.past
  last i hi hrunning := by
    rw [hw.marker] at hi
    rw [(hw.record i).dispatchedAt]
    exact h.last i hi ((hw.record i).running.1 hrunning)

theorem Steady.shift_eq (h : v.Steady w) : d.shift? w = d.shift? v := by
  have hoff : ∀ cpu now, (w.marker cpu).map (fun i =>
        Shift.off ⟨cpu, i, (w.record i).dispatchedAt, now⟩) =
      (v.marker cpu).map fun i => .off ⟨cpu, i, (v.record i).dispatchedAt, now⟩ := by
    intro cpu now
    rw [h.marker]
    exact congrArg (Option.map · _) (funext fun i => by rw [(h.record i).dispatchedAt])
  cases d with
  | leave | exit => exact hoff ..
  | _ => rfl

/-- The stint that a shift ends is that of the process on its CPU, up to the reading of the
deed. -/
theorem of_off {stint : Stint} (h : d.shift? v = some (.off stint)) :
    v.marker stint.cpu = some stint.slot ∧ d.reading? = some stint.till := by
  cases d with
  | leave | exit =>
    obtain ⟨i, hi, hstint⟩ := Option.map_eq_some_iff.1 h
    cases hstint
    exact ⟨hi, rfl⟩
  | dispatch => cases Option.some.inj h
  | _ => cases h

theorem reading_of_on (h : d.shift? v = some (.on i now)) : d.reading? = some now := by
  cases d with
  | leave | exit =>
    obtain ⟨i, hi, hstint⟩ := Option.map_eq_some_iff.1 h
    cases hstint
  | dispatch =>
    cases Option.some.inj h
    rfl
  | _ => cases h

end View

namespace Shift

/-- The stints on a CPU that a shift ends. -/
def stintsOn (cpu : Cpu) (shift : Option Shift) : List Stint :=
  (shift.bind stint?).toList.filter (·.cpu = cpu)

/-- A shift ends a stint on a CPU, or none. -/
theorem stintsOn_eq (cpu : Cpu) (shift : Option Shift) : stintsOn cpu shift = [] ∨
    ∃ stint, shift = some (.off stint) ∧ stint.cpu = cpu ∧ stintsOn cpu shift = [stint] := by
  rcases shift with _ | ⟨_ | stint⟩
  · exact .inl rfl
  · exact .inl rfl
  · by_cases hcpu : stint.cpu = cpu
    · exact .inr ⟨stint, rfl, hcpu, by simp [stintsOn, stint?, hcpu]⟩
    · exact .inl (by simp [stintsOn, stint?, hcpu])

end Shift

namespace Act

variable {P : Params} {v : View} {a : Act} {cpu : Cpu} {d : Deed} {start clock now : Nat}
  {stints : List Stint}

/-- Nobody is running who has just been allocated. -/
theorem clocks_of_running {i : Slot} (h : a.Enabled v) (hd : a.deed? = some d)
    (hdepart : ∀ cpu j now, a ≠ .depart cpu j now)
    (hrunning : (v.record i).stage = .running ∨ ((a.apply P v).record i).stage = .running) :
    (v.record i).Clocks i (d.shift? v) ((a.apply P v).record i) := by
  refine clocks_apply h hd ?_ fun cpu now => hdepart cpu i now
  rintro now rfl
  have hunused : (v.record i).stage = .unused := h.2
  have hrecord : (v.conceive P i now).record i = (v.record i).conceive P v.nextPid now :=
    Function.update_self ..
  rw [apply, hrecord, hunused] at hrunning
  rcases hrunning with ⟨⟨⟩⟩ | ⟨⟨⟩⟩

/-- A CPU is charged for the stint of its process, which has been running since its dispatch. -/
theorem charged_apply (h : a.Enabled v) (hd : a.deed? = some d)
    (hdepart : ∀ cpu j now, a ≠ .depart cpu j now) (hv : v.Charged start clock cpu stints)
    (hacc : ∀ i, (v.record i).Accounted clock) (hle : clock ≤ now)
    (hnow : ∀ reading, d.reading? = some reading → reading = now) :
    (a.apply P v).Charged start now cpu (stints ++ Shift.stintsOn cpu (d.shift? v)) := by
  rcases Shift.stintsOn_eq cpu (d.shift? v) with hnone | ⟨stint, hs, rfl, hone⟩
  · rw [hnone, List.append_nil]
    refine ⟨hv.past.mono hle, fun i hi hrunning => ?_⟩
    cases clocks_of_running h hd hdepart (.inr hrunning) with
    | stays hslot htimes hiff =>
      rw [htimes.dispatchedAt]
      rcases marked_of_apply h hi with hi | ⟨pid, now, rfl⟩
      · exact hv.last i hi (hiff.1 hrunning)
      · cases hd
        exact absurd rfl (hslot _ rfl)
    | begins hshift =>
      rw [hnow _ (View.reading_of_on hshift)]
      exact hv.past.mono hle
    | ends _ _ _ _ _ hafter => exact absurd hrunning hafter
  · obtain ⟨hmarker, hreading⟩ := View.of_off hs
    have hconceive : ∀ now, a ≠ .conceive stint.slot now := by
      rintro now rfl
      cases hd
      cases hs
    cases clocks_apply h hd hconceive fun cpu now => hdepart cpu stint.slot now with
    | stays hslot => exact absurd rfl (hslot _ hs)
    | begins hshift => cases hs.symm.trans hshift
    | ends stint' hshift _ hsince hbefore hafter =>
      cases hs.symm.trans hshift
      have hlast := hv.last _ hmarker hbefore
      have hdispatched := ((hacc _).stint hbefore).2
      have htill : stint.till = now := hnow _ hreading
      rw [hone]
      refine ⟨?_, fun i hi hrunning => ?_⟩
      · rw [← hsince] at hlast hdispatched
        exact htill ▸ hlast.append (htill ▸ Nat.le_trans hdispatched hle)
      · rcases marked_of_apply h hi with hi | ⟨pid, now, rfl⟩
        · cases hmarker.symm.trans hi
          exact absurd hrunning hafter
        · cases hd
          cases hs

end Act

/-! ### Runs -/

namespace Machine

variable {P : Params} {m m₁ : Machine P} {e : Event} {p : Progress} {steps : List (Step P)}
  {i : Slot} {cpu : Cpu} {start clock : Nat}

/-- The shift that a step is. -/
def Step.shift? (s : Step P) : Option Shift :=
  (s.event.deed? s.result).bind (·.shift? s.before.table.view)

/-- The shifts of a list of steps. -/
def shifts (steps : List (Step P)) : List Shift := steps.filterMap Step.shift?

/-- The stints that have ended in a list of steps. -/
def stints (steps : List (Step P)) : List Stint := Shift.ended (shifts steps)

/-- The shifts of the process in a slot. -/
def shiftsOf (steps : List (Step P)) (i : Slot) : List Shift :=
  (shifts steps).filter (·.slot = i)

/-- A disciplined event, where to switch away counts among what happens on behalf of the process on
a CPU: it is running. -/
structure Strict (m : Machine P) (e : Event) : Prop where
  disciplined : m.Disciplined e
  switches : ∀ cpu left now, e = .start (.switch cpu left) now → m.table.Busy cpu

/-- Whoever is running does not switch away without leaving the running stage. -/
theorem Strict.ne_switch (h : m.Strict e) (hm : m.table.Orderly)
    (hperform : m.perform e = .ok (p, m₁)) : ∀ cpu left now, e ≠ .start (.switch cpu left) now := by
  rintro cpu left now rfl
  obtain ⟨i, hi, hrunning⟩ := h.switches cpu left now rfl
  obtain ⟨_, hstretch, -⟩ := bind_eq_ok.1 hperform
  obtain ⟨t, hdepart, -⟩ := bind_eq_ok.1 hstretch
  obtain ⟨-, j, hj, hleft, -⟩ := hm.yields_depart.of_ok hdepart
  cases hi.symm.trans hj
  exact hleft hrunning

theorem shift_of_deed {d : Deed} {u : View} (hdeed : e.deed? p = some d)
    (hu : m.table.view.Steady u) : (Step.mk m e p).shift? = d.shift? u := by
  rw [Step.shift?, hdeed, Option.bind_some, hu.shift_eq]

/-- **What a step does to the readings of a process.** -/
theorem clocks_of_perform_eq_ok (h : m.table.Orderly)
    (hswitch : ∀ cpu left now, e ≠ .start (.switch cpu left) now)
    (hperform : m.perform e = .ok (p, m₁)) (hi : (m.table.record i).stage ≠ .unused) :
    (m.table.record i).Clocks i (Step.mk m e p).shift? (m₁.table.record i) := by
  cases does_of_perform_eq_ok h hperform with
  | steady hdeed hsteady =>
    rw [Step.shift?, hdeed]
    exact (hsteady.record i).clocks
  | @deed d u a hdeed ha howns hu he hw =>
    rw [shift_of_deed hdeed hu]
    refine (Act.clocks_apply he ha ?_ ?_).of_steady (hu.record i) (hw.record i)
    · rintro now rfl
      have hunused : (u.record i).stage = .unused := he.2
      rw [← Stage.phase_eq_free, (hu.record i).phase, Stage.phase_eq_free] at hunused
      exact hi hunused
    · exact fun cpu left => Event.ne_depart_of_owns howns hswitch cpu i left

/-- **What a step charges a CPU for.** -/
theorem charged_of_perform_eq_ok {stints : List Stint} (h : m.table.Orderly)
    (hswitch : ∀ cpu left now, e ≠ .start (.switch cpu left) now)
    (hperform : m.perform e = .ok (p, m₁)) (hv : m.table.view.Charged start clock cpu stints)
    (hacc : ∀ i, (m.table.record i).Accounted clock) (hle : clock ≤ e.now) :
    m₁.table.view.Charged start e.now cpu
      (stints ++ Shift.stintsOn cpu (Step.mk m e p).shift?) := by
  cases does_of_perform_eq_ok h hperform with
  | steady hdeed hsteady =>
    rw [Step.shift?, hdeed]
    exact (List.append_nil stints).symm ▸ (hv.of_steady hsteady).mono hle
  | @deed d u a hdeed ha howns hu he hw =>
    rw [shift_of_deed hdeed hu]
    exact (Act.charged_apply he ha (Event.ne_depart_of_owns howns hswitch) (hv.of_steady hu)
      (accounted_of_steady hu hacc) hle fun reading hreading =>
        Event.reading_of_deed hdeed hreading).of_steady hw

theorem shifts_append {s : Step P} : shifts (steps ++ [s]) = shifts steps ++ s.shift?.toList := by
  rw [shifts, List.filterMap_append, filterMap_singleton, shifts]

theorem shiftsOf_append {s : Step P} :
    shiftsOf (steps ++ [s]) i = shiftsOf steps i ++ s.shift?.toList.filter (·.slot = i) := by
  rw [shiftsOf, shifts_append, List.filter_append, shiftsOf]

theorem stints_append {s : Step P} :
    stints (steps ++ [s]) = stints steps ++ (s.shift?.bind Shift.stint?).toList := by
  rw [stints, shifts_append, Shift.ended, List.filterMap_append, stints, Shift.ended]
  cases s.shift? with
  | none => rfl
  | some shift => exact congrArg (_ ++ ·) filterMap_singleton

/-- In strict histories everybody leaves the running stage by a yield, a sleep or an exit. -/
theorem History.ne_switch (h : m.History steps m₁) (hm : m.table.Orderly)
    (hstrict : ∀ s ∈ steps, s.before.Strict s.event) :
    ∀ s ∈ steps, ∀ cpu left now, s.event ≠ .start (.switch cpu left) now := by
  induction h with
  | nil => exact List.forall_mem_nil _
  | event hrun _ hperform ih =>
    obtain ⟨hpast, hlast⟩ := List.forall_mem_append.1 hstrict
    exact List.forall_mem_append.2 ⟨ih hpast, List.forall_mem_singleton.2
      ((hlast _ List.mem_cons_self).ne_switch (hrun.orderly hm) hperform)⟩
  | grant _ _ ih => exact ih hstrict

/-- The ticks of a process are those of its shifts since it has got its slot. -/
theorem History.exists_records (h : m.History steps m₁) (hm : m.table.Orderly)
    (hnew : ∀ i, (m.table.record i).stage = .unused)
    (hswitch : ∀ s ∈ steps, ∀ cpu left now, s.event ≠ .start (.switch cpu left) now)
    (hi : (m₁.table.record i).stage ≠ .unused) :
    ∃ earlier taken later, steps = earlier ++ taken :: later ∧
      Tenure i (m₁.table.record i).pid taken later ∧
      (m₁.table.record i).Records i (shiftsOf later i) := by
  refine h.exists_tenure_of (Q := fun later p => p.Records i (shiftsOf later i)) hm hnew hswitch
    (fun _ _ _ => ⟨rfl, rfl⟩) (fun _ _ _ hp hsteady => hp.of_steady hsteady) ?_ hi
  intro past m₂ e p m₃ later hrun hswitch hperform hused hrecords
  rw [shiftsOf_append]
  exact hrecords.clocks (clocks_of_perform_eq_ok (hrun.orderly hm) hswitch hperform hused)

/-- A stint was on a CPU of the table. -/
theorem cpu_lt_of_mem_stints {stint : Stint} (h : stint ∈ stints steps) : stint.cpu < P.cpus := by
  obtain ⟨shift, hshift, hstint⟩ := List.mem_filterMap.1 h
  obtain ⟨s, -, hs⟩ := List.mem_filterMap.1 hshift
  obtain ⟨d, -, hd⟩ := Option.bind_eq_some_iff.1 hs
  cases shift with
  | on => cases hstint
  | off =>
    cases hstint
    exact Table.lt_of_occupant? (View.of_off hd).1

/-- On a clock that does not go back the stints on a CPU follow one another. -/
theorem History.charged (h : m.History steps m₁) (hm : m.table.Orderly)
    (hacc : ∀ i, (m.table.record i).Accounted start)
    (hnew : ∀ i, (m.table.record i).stage = .unused)
    (hswitch : ∀ s ∈ steps, ∀ cpu left now, s.event ≠ .start (.switch cpu left) now)
    (hclock : (start :: steps.map Step.now ++ [clock]).Pairwise (· ≤ ·)) (cpu : Cpu) :
    m₁.table.view.Charged start clock cpu ((stints steps).filter (·.cpu = cpu)) := by
  induction h generalizing clock with
  | nil =>
    refine ⟨List.rel_of_pairwise_cons hclock List.mem_cons_self, fun i _ hrunning => ?_⟩
    cases (hnew i).symm.trans hrunning
  | @event past m₂ m₃ e p hrun _ hperform ih =>
    obtain ⟨hpast, hlast⟩ := List.forall_mem_append.1 hswitch
    rw [List.map_append, ← List.cons_append] at hclock
    obtain ⟨hbefore, -, hle⟩ := List.pairwise_append.1 hclock
    have hnow : e.now ≤ clock := hle e.now (List.mem_append_right _ List.mem_cons_self) clock
      List.mem_cons_self
    have hstep := charged_of_perform_eq_ok (hrun.orderly hm) (hlast _ List.mem_cons_self) hperform
      (ih hpast hbefore) (hrun.accounted hm hacc hpast hbefore) (Nat.le_refl _)
    rw [stints_append, List.filter_append]
    exact hstep.mono hnow
  | grant hrun hgrants ih =>
    exact (ih hswitch hclock).of_steady (hgrants.steady (hrun.orderly hm))

/-- Nobody is charged for more time than the CPUs have had. -/
theorem total_stints_le
    (h : ∀ cpu, Stint.Follow clock start ((stints steps).filter (·.cpu = cpu))) :
    Stint.total (stints steps) ≤ P.cpus * (clock - start) := by
  rw [Stint.total_eq_sum fun s => cpu_lt_of_mem_stints]
  calc ∑ cpu ∈ Finset.range P.cpus, Stint.total ((stints steps).filter (·.cpu = cpu))
      ≤ (Finset.range P.cpus).card • (clock - start) :=
        Finset.sum_le_card_nsmul _ _ _ fun cpu _ => Nat.le_sub_of_add_le' (h cpu).total_le
    _ = P.cpus * (clock - start) := by rw [Finset.card_range, smul_eq_mul]

/-- **The accounts of processes and CPUs are exact.**  Take a run by the rules on a clock that does
not go back.  The ticks of everybody who is in a slot are those of the stints that have ended since
the slot was taken.  With those of a stint that has not ended, they have passed since the start of
the process, so nothing overflows when the stint ends.  The stints on a CPU follow one another, so
all stints of all processes, those that have been reaped included, are no longer than the time that
has passed on all CPUs together. -/
theorem billed_of_history {t : Table P} (hcreate : Table.create P start = .ok (.ok t))
    (hrun : History { table := t } steps m) (hstrict : ∀ s ∈ steps, s.before.Strict s.event)
    (hclock : (start :: steps.map Step.now ++ [clock]).Pairwise (· ≤ ·)) :
    (∀ i, (m.table.record i).stage ≠ .unused →
      ∃ earlier taken later, steps = earlier ++ taken :: later ∧
        Tenure i (m.table.record i).pid taken later ∧
        (m.table.record i).Records i (shiftsOf later i)) ∧
    (∀ i, (m.table.record i).startedAt + ((m.table.record i).cpuTicks +
      if (m.table.record i).stage = .running then clock - (m.table.record i).dispatchedAt else 0) ≤
        clock) ∧
    (clock < word64 → ∀ cpu, m.table.Busy cpu → (∀ channel, Ends (m.table.park cpu channel clock)) ∧
      Ends (m.table.yield cpu clock) ∧ Ends (m.table.retire cpu clock)) ∧
    (∀ cpu, Stint.Follow clock start ((stints steps).filter (·.cpu = cpu))) ∧
    Stint.total (stints steps) ≤ P.cpus * (clock - start) := by
  obtain ⟨ht, hview⟩ := Table.orderly_of_create hcreate
  have hrecord : ∀ i, t.record i = {} := fun i => congrArg (·.record i) hview
  have hnew : ∀ i, (t.record i).stage = .unused := fun i => by rw [hrecord]
  have hfresh : ∀ i, (t.record i).Accounted start := fun i => by
    rw [hrecord]
    exact ⟨Nat.zero_le _, nofun⟩
  have hswitch := hrun.ne_switch ht hstrict
  have hacc : ∀ i, (m.table.record i).Accounted clock := hrun.accounted ht hfresh hswitch hclock
  have hfollow : ∀ cpu, Stint.Follow clock start ((stints steps).filter (·.cpu = cpu)) :=
    fun cpu => (hrun.charged ht hfresh hnew hswitch hclock cpu).past
  refine ⟨fun i hi => hrun.exists_records ht hnew hswitch hi, fun i => (hacc i).add_le,
    fun hword cpu hbusy => ?_, hfollow, total_stints_le hfollow⟩
  have hk : m.Kept := hrun.kept (kept_of_create hcreate) fun s hs => (hstrict s hs).disciplined
  obtain ⟨i, hi, hrunning⟩ := hbusy
  have hfits := (hacc i).lt_of_running (Nat.le_refl clock) hrunning hword
  have hm := hk.regular.orderly
  refine ⟨fun channel => hm.yields_park.ends ⟨i, hi, hrunning, hfits⟩,
    hm.yields_yield.ends ⟨i, hi, hrunning, hfits⟩, hm.yields_retire.ends ⟨i, hi, hrunning, ?_, ?_,
      hfits⟩⟩
  · exact Table.closed_of_tree hk.regular.tree i
  · exact fun r hr => Table.lt_of_stage_ne (hk.regular.tree.root r hr).1.started.1

/-- The root process is on the only CPU for two ticks, yields, and is dispatched again. -/
theorem billed_of_yielding : ∃ (t : Table ⟨1, 1, 2, 100, 1, true⟩) (steps : List (Step _))
    (m : Machine _), Table.create _ 0 = .ok (.ok t) ∧ History { table := t } steps m ∧
      (∃ earlier taken later, steps = earlier ++ taken :: later ∧ Tenure 0 1 taken later ∧
        Stint.total (Shift.ended (shiftsOf later 0)) = 2) ∧
      Ends (m.table.yield 0 9) ∧ Stint.total (stints steps) ≤ 9 := by
  obtain ⟨t, hcreate, hleads⟩ : ∃ t : Table ⟨1, 1, 2, 100, 1, true⟩,
      Table.create _ 0 = .ok (.ok t) ∧ Leads Strict (fun m => (m.table.record 0).pid = 1 ∧
        (m.table.record 0).stage = .running ∧ (m.table.record 0).cpuTicks = 2 ∧
        m.table.occupant? 0 = some 0)
      [.start (.boot "" []) 0, .answer ⟨none, .allocating 0 (.root "" [])⟩ (some ⟨0⟩) 0,
        .answer ⟨none, .mapping 0 "" []⟩ (some ⟨0⟩) 0, .start (.dispatch 0) 3,
        .start (.yield 0) 5, .start (.reclaim 0 ⟨0, 1⟩) 6, .start (.dispatch 0) 7]
      { table := t } := by
    have hnone {m : Machine ⟨1, 1, 2, 100, 1, true⟩} {e : Event} (hcpu : e.cpu? = none)
        (hback : e.givesBack = none) : m.Disciplined e :=
      (considerate_of_none hcpu hback).disciplined
    refine ⟨_, rfl, trivial, ⟨hnone rfl rfl, nofun⟩, _, _, rfl, ?_⟩
    refine ⟨List.mem_cons_self, ⟨hnone rfl rfl, nofun⟩, _, _, rfl, ?_⟩
    refine ⟨List.mem_cons_self, ⟨hnone rfl rfl, nofun⟩, _, _, rfl, ?_⟩
    refine ⟨trivial, ⟨hnone rfl rfl, nofun⟩, _, _, rfl, ?_⟩
    refine ⟨trivial, ⟨disciplined_of_works (i := 0) rfl rfl ⟨rfl, rfl, rfl⟩ nofun, nofun⟩,
      _, _, rfl, ?_⟩
    refine ⟨trivial, ⟨disciplined_of_reclaim rfl rfl List.mem_cons_self (by decide), nofun⟩,
      _, _, rfl, ?_⟩
    refine ⟨trivial, ⟨hnone rfl rfl, nofun⟩, _, _, rfl, ?_⟩
    exact ⟨rfl, rfl, rfl, rfl⟩
  obtain ⟨steps, m, hrun, hevents, hstrict, hpid, hrunning, hticks, hcpu⟩ := hleads.exists_history
  have hnows : steps.map Step.now = [0, 0, 0, 3, 5, 6, 7] := by
    rw [show Step.now = Event.now ∘ Step.event (P := ⟨1, 1, 2, 100, 1, true⟩) from rfl,
      ← List.map_map, hevents]
    rfl
  have hclock : (0 :: steps.map Step.now ++ [9]).Pairwise (· ≤ ·) := by
    rw [hnows]
    decide
  obtain ⟨hrecords, -, hends, -, htotal⟩ := billed_of_history hcreate hrun hstrict hclock
  obtain ⟨earlier, taken, later, hsteps, htenure, hlater⟩ := hrecords 0 (hrunning ▸ nofun)
  rw [hpid] at htenure
  refine ⟨t, steps, m, hcreate, hrun, ⟨earlier, taken, later, hsteps, htenure, ?_⟩,
    (hends (by decide) 0 ⟨0, hcpu, hrunning⟩).2.1, htotal⟩
  rw [← hlater.cpuTicks_eq, hticks]

end Machine

end FeedbackQueue
