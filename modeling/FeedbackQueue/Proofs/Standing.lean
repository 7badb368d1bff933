import FeedbackQueue.Proofs.Pids

/-!
# Level and budget of a process

Four things happen to the level and the budget of a process: a stint begins, and ends in a yield or
a sleep, which is charged; a promotion sweep finds it; and it is put on a level by request.  From
its allocation on, its level and budget are what these *turns* make of them, one after the other,
in exact arithmetic.  Nothing that happens to other processes plays a part.

## Main definitions

* `Standing`, `Standing.turn` : level and budget with the begin of the last stint, and how they
  change.
* `Machine.Step.turn?` : the turn that a step is for the process in a slot.

## Main statements

* `Act.standing_apply` : what an act does to the standing of a process.
* `Machine.standing_of_history` : the standing of a process is the fold of its turns.
-/

namespace FeedbackQueue

/-- Where a process stands. -/
structure Standing where
  /-- Its ready level. -/
  priority : Nat
  /-- The ticks that it has left there. -/
  budget : Int
  /-- The begin of its last stint. -/
  since : Nat

/-- What happens to the standing of a process. -/
inductive Turn where
  /-- A stint begins. -/
  | dispatch (now : Nat)
  /-- A stint ends in a yield or a sleep. -/
  | leave (now : Nat)
  /-- A promotion sweep finds the process among those that live. -/
  | sweep
  /-- The process is put on a level. -/
  | assign (priority : Nat)

namespace Standing

/-- The standing after a turn. -/
def turn (P : Params) (s : Standing) : Turn → Standing
  | .dispatch now => { s with since := now }
  | .leave now =>
    let budget := s.budget - (now - s.since : Nat)
    if budget ≤ 0 then { s with priority := s.priority - 1, budget := P.budget }
    else { s with budget }
  | .sweep =>
    if s.priority < P.maxPriority then
      { s with priority := s.priority + 1, budget := P.budget }
    else s
  | .assign priority => { s with priority, budget := P.budget }

/-- The standing of a process that has just been allocated. -/
def initial (P : Params) : Standing := ⟨P.maxPriority, P.budget, 0⟩

/-- A budget is positive, and no more than a full one. -/
def Funded (P : Params) (s : Standing) : Prop := 0 < s.budget ∧ s.budget ≤ P.budget

theorem Funded.turn {P : Params} {s : Standing} (h : s.Funded P) (hP : 0 < P.budget) (τ : Turn) :
    (s.turn P τ).Funded P := by
  have hfull : 0 < P.budget ∧ P.budget ≤ P.budget := ⟨hP, le_rfl⟩
  cases τ with
  | dispatch => exact h
  | leave now =>
    simp only [Standing.turn]
    split
    · exact hfull
    · refine ⟨Int.lt_of_not_ge ‹_›, ?_⟩
      have hle := h.2
      dsimp only
      omega
  | sweep =>
    simp only [Standing.turn]
    split
    · exact hfull
    · exact h
  | assign => exact hfull

end Standing

namespace Process

variable {P : Params} {p : Process} {now : Nat}

/-- The standing of the process of a record. -/
def standing (p : Process) : Standing := ⟨p.priority, p.budget, p.dispatchedAt⟩

/-- A charge below the end of the signed range is exact. -/
theorem standing_charge (h : p.standing.Funded P) (hP : P.budget < sign64) (hnow : now < sign64) :
    (p.charge P.budget now).standing = p.standing.turn P (.leave now) := by
  obtain ⟨hpos, hle⟩ := h
  simp only [standing] at hpos hle
  have hticks : signed64 (now - p.dispatchedAt) = (now - p.dispatchedAt : Nat) :=
    signed64_of_lt (Nat.lt_of_le_of_lt (Nat.sub_le _ _) hnow)
  have hfits : clamp64 (p.budget - (now - p.dispatchedAt : Nat)) =
      p.budget - (now - p.dispatchedAt : Nat) := by
    refine clamp64_of_fits ?_ ?_ <;> omega
  simp only [charge, hticks, hfits, Standing.turn, standing]
  by_cases hused : p.budget - (now - p.dispatchedAt : Nat) ≤ 0
  · simp [hused]
  · simp [hused]

theorem standing_promote : (p.promote P).standing = p.standing.turn P .sweep := by
  simp only [promote, Standing.turn, standing]
  by_cases hlow : p.priority < P.maxPriority
  · simp [hlow]
  · simp [hlow]

theorem Steady.standing {q : Process} (h : p.Steady q) : q.standing = p.standing := by
  rw [Process.standing, h.priority, h.budget, h.dispatchedAt, Process.standing]

end Process

/-! ### Deeds -/

/-- The turn that a deed is for the process in a slot; `asked` tells whether it is this process that
is asked to be put on a level. -/
def Deed.turn? (P : Params) (v : View) (i : Slot) (asked : Bool) : Deed → Option Turn
  | dispatch _ handoff now => if handoff.slot = i then some (.dispatch now) else none
  | leave cpu now => if v.marker cpu = some i then some (.leave now) else none
  | sweep => if (v.record i).stage.isActive then some .sweep else none
  | sweepIfDue now | reclaim _ _ now =>
    if (v.sweepAt ≤ now ∧ 0 < P.maxPriority) ∧ (v.record i).stage.isActive then some .sweep
    else none
  | assign priority => if asked then some (.assign priority) else none
  | _ => none

theorem Stage.isActive_eq {s : Stage} : s.isActive = (s.phase = .alive : Bool) := by
  cases s <;> rfl

theorem Deed.turn_of_ne_assign {P : Params} {v : View} {i : Slot} {asked asked' : Bool} {d : Deed}
    (h : ∀ priority, d ≠ .assign priority) : d.turn? P v i asked = d.turn? P v i asked' := by
  cases d with
  | assign priority => exact absurd rfl (h priority)
  | _ => rfl

namespace View

variable {P : Params} {v w : View} {i j : Slot} {now : Nat} {f : Process → Process} {d : Deed}
  {asked : Bool}

theorem Steady.isActive_eq (h : v.Steady w) :
    (w.record i).stage.isActive = (v.record i).stage.isActive := by
  rw [Stage.isActive_eq, Stage.isActive_eq, (h.record i).phase]

/-- Steady changes make no difference to turns. -/
theorem Steady.turn_eq (h : v.Steady w) : d.turn? P w i asked = d.turn? P v i asked := by
  cases d <;> simp only [Deed.turn?, h.marker, h.sweepAt, h.isActive_eq]

/-- Only the process that leaves its CPU is charged. -/
theorem standing_leave (hf : ∀ p, (f p).standing = p.standing)
    (h : j = i → (v.record i).standing.Funded P ∧ P.budget < sign64 ∧ now < sign64) :
    ((v.leave P j now f).record i).standing =
      if j = i then (v.record i).standing.turn P (.leave now) else (v.record i).standing := by
  rw [leave_record]
  by_cases hij : j = i
  · subst j
    obtain ⟨hfunded, hP, hnow⟩ := h rfl
    rw [Function.update_self, if_pos rfl, ← Process.standing_charge hfunded hP hnow]
    exact hf _
  · rw [Function.update_of_ne (Ne.symm hij), if_neg hij]

theorem standing_sweep : ((v.sweep P).record i).standing =
    if (v.record i).stage.isActive then (v.record i).standing.turn P .sweep
    else (v.record i).standing := by
  simp only [sweep]
  split
  · exact Process.standing_promote
  · rfl

theorem standing_sweepIfDue : ((v.sweepIfDue P now).record i).standing =
    if (v.sweepAt ≤ now ∧ 0 < P.maxPriority) ∧ (v.record i).stage.isActive then
      (v.record i).standing.turn P .sweep
    else (v.record i).standing := by
  unfold sweepIfDue
  by_cases hdue : v.sweepAt ≤ now ∧ 0 < P.maxPriority
  · rw [if_pos hdue, if_congr (and_iff_right hdue) rfl rfl]
    exact standing_sweep
  · rw [if_neg hdue, if_neg fun h => hdue h.1]

theorem standing_reclaim {cpu : Cpu} : ((v.reclaim P cpu j now).record i).standing =
    if (v.sweepAt ≤ now ∧ 0 < P.maxPriority) ∧ (v.record i).stage.isActive then
      (v.record i).standing.turn P .sweep
    else (v.record i).standing := by
  -- the wake-up before the sweep is steady
  have hwake : (v.mark cpu none).Steady (if ((v.mark cpu none).record j).stage = .zombie then
      (v.mark cpu none).wakeParent ((v.mark cpu none).record j) else v.mark cpu none) := by
    split
    · exact steady_wakeParent
    · exact .refl _
  unfold reclaim
  dsimp only
  rw [standing_sweepIfDue, hwake.sweepAt, (hwake.record i).standing, hwake.isActive_eq]
  rfl

end View

namespace Act

variable {P : Params} {v : View} {a : Act} {i : Slot} {d : Deed}

/-- The slot that an act puts on a level. -/
def assigns? : Act → Option Slot
  | assign i _ => some i
  | _ => none

/-- Births and reapings leave the standing behind, but for an allocation. -/
theorem standing_of_writes {j : Slot} (hj : a.writes? = some j)
    (hnew : ∀ now, a ≠ .conceive i now) :
    ((a.apply P v).record i).standing = (v.record i).standing := by
  by_cases hij : i = j
  · subst i
    cases a with
    | conceive j now =>
      cases hj
      exact absurd rfl (hnew now)
    | discard j =>
      cases hj
      rw [apply, View.discard_record, Function.update_self]
      rfl
    | abandon j =>
      cases hj
      rw [apply, View.abandon_record, Function.update_self]
      rfl
    | crown j name space =>
      cases hj
      rw [apply, View.crown_record, Function.update_self]
      simp only [Process.standing, Process.enter, Process.crown, Process.rename]
    | launch j plan space files cwd =>
      cases hj
      rw [apply, View.launch_record, Function.update_self]
      rfl
    | reap cpu me j =>
      cases hj
      rw [apply, View.reap_record, Function.update_self]
      rfl
    | _ => cases hj
  · rw [record_of_writes hj hij]

/-- **What an act does to the standing of a process.**  Only a charge needs that budget and clock
are within their range. -/
theorem standing_apply (h : a.Enabled v) (hd : a.deed? = some d)
    (hnew : ∀ now, a ≠ .conceive i now)
    (hcharge : ∀ cpu now, d = .leave cpu now → v.marker cpu = some i →
      (v.record i).standing.Funded P ∧ P.budget < sign64 ∧ now < sign64) :
    ((a.apply P v).record i).standing =
      (d.turn? P v i (a.assigns? = some i)).toList.foldl (Standing.turn P)
        (v.record i).standing := by
  cases a with
  | conceive | discard | abandon | crown | launch | reap =>
    rw [standing_of_writes rfl hnew]
    cases hd
    rfl
  | retire cpu j now =>
    cases hd
    obtain ⟨_, _, _, _, _, e, -, -⟩ := v.retire_record_eq (P := P) j i now
    rw [apply, e]
    rfl
  | await cpu j now | park cpu j _ now | yield cpu j now =>
    cases hd
    have hmarker : v.marker cpu = some j := h.1
    rw [apply]
    refine (View.standing_leave ?_ ?_).trans ?_
    · exact fun _ => rfl
    · rintro rfl
      exact hcharge cpu now rfl hmarker
    · simp only [Deed.turn?, hmarker, Option.some.injEq]
      split <;> rfl
  | depart cpu j now =>
    cases hd
    rw [apply, View.depart, View.revise_record, Function.update_apply]
    split
    · subst i
      rfl
    · rfl
  | dispatch cpu handoff now =>
    cases hd
    rw [apply, View.dispatch, View.mark_record, View.shift_record, Function.update_apply]
    simp only [Deed.turn?, eq_comm (a := i)]
    split
    · subst i
      rfl
    · rfl
  | reclaim cpu j now =>
    cases hd
    rw [apply, View.standing_reclaim]
    simp only [Deed.turn?]
    split <;> rfl
  | sweepIfDue now =>
    cases hd
    rw [apply, View.standing_sweepIfDue]
    simp only [Deed.turn?]
    split <;> rfl
  | sweep =>
    cases hd
    rw [apply, View.standing_sweep]
    simp only [Deed.turn?]
    split <;> rfl
  | assign j priority =>
    cases hd
    rw [apply, View.assign_record, Function.update_apply]
    simp only [Deed.turn?, assigns?, Option.some.injEq, decide_eq_true_eq, eq_comm (a := i)]
    split
    · subst j
      rfl
    · rfl
  | _ => cases hd

end Act

/-! ### Runs -/

/-- The process that an event asks to be put on a level. -/
def Event.target? : Event → Option Pid
  | .start (.setPriority pid _) _ => some pid
  | _ => none

namespace Machine

variable {P : Params} {m m₁ : Machine P} {e : Event} {p : Progress} {steps : List (Step P)}
  {i : Slot}

/-- The turn that a step is for the process in a slot. -/
def Step.turn? (s : Step P) (i : Slot) : Option Turn :=
  (s.event.deed? s.result).bind fun d => d.turn? P s.before.table.view i
    (s.event.target? = some (s.before.table.record i).pid)

/-- A request that puts a process on a level has found it. -/
theorem of_assigns {pid : Pid} {priority : Nat} {clock : Clock} (h : m.table.Orderly)
    (hdeed : (Event.start (.setPriority pid priority) clock).deed? p = some (.assign priority))
    (hperform : m.perform (.start (.setPriority pid priority) clock) = .ok (p, m₁)) :
    ∃ j, (m.table.record j).pid = pid ∧ (m.table.record j).stage.isActive = true ∧
      m₁.table.view = m.table.view.assign P j priority := by
  obtain ⟨⟨q, t⟩, hstretch, hafter⟩ := bind_eq_ok.1 hperform
  obtain ⟨result, hresult, hend⟩ := bind_eq_ok.1 hstretch
  have hyields := h.yields_setPriority.of_ok hresult
  cases hafter
  cases result with
  | error why =>
    cases hend
    cases hdeed
  | ok t' =>
    obtain ⟨-, -, j, hpid, hactive, hview⟩ := hyields
    cases hend
    exact ⟨j, hpid, hactive, hview⟩

/-- **What an event does to the standing of a process.** -/
theorem standing_of_perform_eq_ok (h : m.table.Orderly) (hn : m.table.view.Numbered)
    (hperform : m.perform e = .ok (p, m₁)) (hi : (m.table.record i).stage ≠ .unused)
    (hfunded : (m.table.record i).standing.Funded P) (hP : P.budget < sign64)
    (hnow : e.now < sign64) :
    (m₁.table.record i).standing = ((Step.mk m e p).turn? i).toList.foldl (Standing.turn P)
      (m.table.record i).standing := by
  unfold Step.turn?
  dsimp only
  cases does_of_perform_eq_ok h hperform with
  | steady hdeed hsteady =>
    rw [hdeed]
    exact (hsteady.record i).standing
  | @deed d u a hdeed ha howns hu he hw =>
    rw [hdeed, Option.bind_some]
    by_cases hassign : ∃ j priority, a = .assign j priority
    · obtain ⟨j, priority, rfl⟩ := hassign
      cases ha
      obtain ⟨pid, clock, rfl⟩ := howns
      obtain ⟨k, hpid, hactive, hview⟩ := of_assigns h hdeed hperform
      have hasked : decide ((Act.assign k priority).assigns? = some i) =
          decide ((Event.start (.setPriority pid priority) clock).target? =
            some (m.table.record i).pid) := by
        refine decide_eq_decide.2 ⟨fun hki => ?_, fun heq => ?_⟩
        · obtain rfl := Option.some.inj hki
          exact congrArg some hpid.symm
        · have hk : (m.table.record k).stage ≠ .unused := by
            intro hunused
            rw [hunused] at hactive
            cases hactive
          exact congrArg some (hn.pid_inj k i hk (hpid.trans (Option.some.inj heq)))
      rw [← Table.view_record, hview, ← hasked]
      exact Act.standing_apply (a := .assign k priority) hactive rfl nofun nofun
    · have hstanding := Act.standing_apply (P := P) (i := i) he ha ?_ ?_
      · rw [hu.turn_eq, (hu.record i).standing] at hstanding
        rw [← Table.view_record, (hw.record i).standing, hstanding,
          Deed.turn_of_ne_assign fun priority hd => ?_]
        · rfl
        · subst hd
          cases a <;> cases ha
          exact hassign ⟨_, _, rfl⟩
      · rintro now rfl
        have hunused : (u.record i).stage = .unused := he.2
        rw [← Stage.phase_eq_free, (hu.record i).phase, Stage.phase_eq_free] at hunused
        exact hi hunused
      · rintro cpu now rfl -
        rw [(hu.record i).standing]
        exact ⟨hfunded, hP, Event.reading_of_deed hdeed rfl ▸ hnow⟩

/-- A slot has been taken in a step, and has had the pid that it got there ever since. -/
structure Tenure (i : Slot) (pid : Pid) (taken : Step P) (later : List (Step P)) : Prop where
  allocated : taken.event.deed? taken.result = some (.allocate i taken.event.now)
  given : taken.given? = some pid
  kept : ∀ s ∈ later, (s.before.table.record i).pid = pid

/-- What holds of a process and the steps since it has got its slot, if it holds at an allocation
and every step keeps it. -/
theorem History.exists_tenure_of {Q : List (Step P) → Process → Prop} {allowed : Step P → Prop}
    (h : m.History steps m₁) (hm : m.table.Orderly) (hnew : ∀ i, (m.table.record i).stage = .unused)
    (hallowed : ∀ s ∈ steps, allowed s) (htaken : ∀ p pid now, Q [] (Process.conceive P pid now p))
    (hsteady : ∀ later p q, Q later p → p.Steady q → Q later q)
    (hstep : ∀ past m₂ e p m₃ later, m.History past m₂ → allowed ⟨m₂, e, p⟩ →
      m₂.perform e = .ok (p, m₃) → (m₂.table.record i).stage ≠ .unused →
      Q later (m₂.table.record i) → Q (later ++ [⟨m₂, e, p⟩]) (m₃.table.record i))
    (hi : (m₁.table.record i).stage ≠ .unused) :
    ∃ earlier taken later, steps = earlier ++ taken :: later ∧
      Tenure i (m₁.table.record i).pid taken later ∧ Q later (m₁.table.record i) := by
  induction h with
  | nil => exact absurd (hnew i) hi
  | @event past m₂ m₃ e p hrun _ hperform ih =>
    obtain ⟨hpast, hlast⟩ := List.forall_mem_append.1 hallowed
    rcases kept_or_allocated (hrun.orderly hm) hperform hi with ⟨hused, hpid⟩ | ⟨hdeed, hrecord⟩
    · obtain ⟨earlier, taken, later, rfl, htenure, hlater⟩ := ih hpast hused
      refine ⟨earlier, taken, later ++ [⟨m₂, e, p⟩], ?_, ⟨htenure.allocated, ?_, ?_⟩, ?_⟩
      · rw [List.append_assoc, List.cons_append]
      · rw [hpid]
        exact htenure.given
      · rw [hpid]
        exact List.forall_mem_append.2 ⟨htenure.kept, List.forall_mem_singleton.2 rfl⟩
      · exact hstep _ _ _ _ _ _ hrun (hlast _ List.mem_cons_self) hperform hused hlater
    · have hgiven : Step.given? ⟨m₂, e, p⟩ = some (m₃.table.record i).pid := by
        unfold Step.given?
        rw [hdeed, hperform]
      exact ⟨past, ⟨m₂, e, p⟩, [], rfl, ⟨hdeed, hgiven, List.forall_mem_nil _⟩,
        hsteady _ _ _ (htaken _ _ _) hrecord⟩
  | grant hrun hgrants ih =>
    have hrecord := (hgrants.steady (hrun.orderly hm)).record i
    simp only [Table.view_record] at hrecord
    rw [ne_eq, ← Stage.phase_eq_free, hrecord.phase, Stage.phase_eq_free] at hi
    obtain ⟨earlier, taken, later, hsteps, htenure, hlater⟩ := ih hallowed hi
    exact ⟨earlier, taken, later, hsteps, hrecord.pid.symm ▸ htenure,
      hsteady _ _ _ hlater hrecord⟩

/-- The standing that the turns of the process in a slot make of the initial one. -/
def standingAfter (later : List (Step P)) (i : Slot) : Standing :=
  (later.filterMap (·.turn? i)).foldl (Standing.turn P) (.initial P)

/-- Turns leave a budget positive, and no more than a full one. -/
theorem funded_standingAfter (hP : 0 < P.budget) : (standingAfter steps i).Funded P := by
  unfold standingAfter
  generalize steps.filterMap (·.turn? i) = turns
  have hinitial : (Standing.initial P).Funded P := ⟨hP, le_rfl⟩
  generalize Standing.initial P = start at hinitial ⊢
  induction turns generalizing start with
  | nil => exact hinitial
  | cons τ turns ih => exact ih _ (hinitial.turn hP τ)

theorem standingAfter_append {s : Step P} : standingAfter (steps ++ [s]) i =
    (s.turn? i).toList.foldl (Standing.turn P) (standingAfter steps i) := by
  unfold standingAfter
  rw [List.filterMap_append, List.foldl_append, filterMap_singleton]

/-- The standing of a slot in use, along a history. -/
theorem History.exists_tenure (h : m.History steps m₁) (hm : m.table.Orderly)
    (hnumbered : m.table.view.Numbered) (hnew : ∀ i, (m.table.record i).stage = .unused)
    (hpos : 0 < P.budget) (hP : P.budget < sign64) (hclock : ∀ s ∈ steps, s.event.now < sign64)
    (hi : (m₁.table.record i).stage ≠ .unused) :
    ∃ earlier taken later, steps = earlier ++ taken :: later ∧
      Tenure i (m₁.table.record i).pid taken later ∧
      (m₁.table.record i).standing = standingAfter later i := by
  refine h.exists_tenure_of (Q := fun later p => p.standing = standingAfter later i) hm hnew hclock
    (fun _ _ _ => rfl) (fun _ _ _ hp hsteady => hsteady.standing.trans hp) ?_ hi
  intro past m₂ e p m₃ later hrun hnow hperform hused hstanding
  have hfunded : (m₂.table.record i).standing.Funded P := by
    rw [hstanding]
    exact funded_standingAfter hpos
  rw [standingAfter_append, ← hstanding]
  exact standing_of_perform_eq_ok (hrun.orderly hm) (hrun.numbered hm hnumbered) hperform hused
    hfunded hP hnow

/-- **The standing of a process is the fold of its turns.**  Whoever is in a slot has got it and its
pid in some step of the run.  From there on its turns, one after the other, have made its level and
its budget out of the top level and a full budget.  So budgets stay positive and no more than full,
and levels within the table. -/
theorem standing_of_history {t : Table P} {now : Nat} (hcreate : Table.create P now = .ok (.ok t))
    (hrun : History { table := t } steps m) (hbudget : P.budget < sign64)
    (hclock : ∀ s ∈ steps, s.event.now < sign64) :
    ∀ i, (m.table.record i).stage ≠ .unused →
      (∃ earlier taken later, steps = earlier ++ taken :: later ∧
        Tenure i (m.table.record i).pid taken later ∧
        (m.table.record i).standing = standingAfter later i) ∧
      0 < (m.table.record i).budget ∧ (m.table.record i).budget ≤ P.budget ∧
      (m.table.record i).priority ≤ P.maxPriority := by
  intro i hi
  obtain ⟨ht, hview⟩ := Table.orderly_of_create hcreate
  have hpos : 0 < P.budget := by
    have hcheck := (Table.create_eq_ok hcreate).1
    unfold Params.check at hcheck
    split_ifs at hcheck with _ _ hbudget
    exact Int.lt_of_not_ge hbudget
  have hfresh : ∀ j, (t.record j).stage = .unused := fun j => by
    rw [← Table.view_record, hview]
    rfl
  obtain ⟨earlier, taken, later, hsteps, htenure, hstanding⟩ :=
    hrun.exists_tenure ht (hview ▸ numbered_fresh) hfresh hpos hbudget hclock hi
  have hfunded : (m.table.record i).standing.Funded P := by
    rw [hstanding]
    exact funded_standingAfter hpos
  exact ⟨⟨earlier, taken, later, hsteps, htenure, hstanding⟩, hfunded.1, hfunded.2,
    (hrun.orderly ht).sound.valid.priority_le i⟩

/-- The root process uses up its budget of two ticks in its first stint, and is demoted. -/
theorem standing_of_yielding : ∃ (t : Table ⟨1, 1, 2, 100, 1, true⟩) (steps : List (Step _))
    (m : Machine _), Table.create _ 0 = .ok (.ok t) ∧ History { table := t } steps m ∧
      ∃ earlier taken later, steps = earlier ++ taken :: later ∧ Tenure 0 1 taken later ∧
        standingAfter later 0 = ⟨0, 2, 3⟩ := by
  obtain ⟨t, steps, m, hcreate, hrun, hclock, hstage, hpid, hstanding⟩ :
      ∃ (t : Table ⟨1, 1, 2, 100, 1, true⟩) (steps : List (Step _)) (m : Machine _),
        Table.create _ 0 = .ok (.ok t) ∧ History { table := t } steps m ∧
        steps.map (·.event.now) = [0, 0, 0, 3, 5] ∧ (m.table.record 0).stage = .runnable ∧
        (m.table.record 0).pid = 1 ∧ (m.table.record 0).standing = ⟨0, 2, 3⟩ :=
    ⟨_, _, _, rfl,
      History.nil.event (e := .start (.boot "" []) 0) trivial rfl
        |>.event (e := .answer ⟨none, .allocating 0 (.root "" [])⟩ (some ⟨0⟩) 0)
          List.mem_cons_self rfl
        |>.event (e := .answer ⟨none, .mapping 0 "" []⟩ (some ⟨0⟩) 0) List.mem_cons_self rfl
        |>.event (e := .start (.dispatch 0) 3) trivial rfl
        |>.event (e := .start (.yield 0) 5) trivial rfl, rfl, rfl, rfl, rfl⟩
  have hnow : ∀ s ∈ steps, s.event.now < sign64 := by
    intro s hs
    have hmem := hclock ▸ List.mem_map_of_mem (f := fun s : Step _ => s.event.now) hs
    have hle : s.event.now ≤ 5 := by
      simp only [List.mem_cons, List.not_mem_nil, or_false] at hmem
      omega
    exact Nat.lt_of_le_of_lt hle (by decide)
  have hused : (m.table.record 0).stage ≠ .unused := hstage ▸ nofun
  obtain ⟨⟨earlier, taken, later, hsteps, htenure, hfold⟩, -⟩ :=
    standing_of_history hcreate hrun (by decide) hnow 0 hused
  rw [hpid] at htenure
  exact ⟨t, steps, m, hcreate, hrun, earlier, taken, later, hsteps, htenure,
    hfold.symm.trans hstanding⟩

end Machine

end FeedbackQueue
