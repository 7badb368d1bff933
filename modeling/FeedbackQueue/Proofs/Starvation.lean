import FeedbackQueue.Proofs.Line

/-!
# Nobody starves

A process that waits for a CPU is dispatched after a number of promotion sweeps and dispatches that
is known beforehand.  Every sweep takes it one level up, until it is at the top; nobody comes before
it at the top any more, and every dispatch that takes somebody else takes one of those before it.
Since a chain has at most as many slots as the table, so many dispatches reach it.

What happens is read off the history of a run.

## Main definitions

* `Machine.Step.isSweep`, `Machine.Step.Dispatches` : what a step does.
* `Machine.Awaits` : a process waits for a CPU.

## Main statements

* `Machine.awaits_of_perform_eq_ok` : who is not dispatched goes on waiting.
* `Machine.History.climbs` : sweeps take a waiting process to the top.
* `Machine.History.exists_dispatches` : dispatches at the top reach it.
* `Machine.dispatched_of_history` : nobody starves.
-/

namespace FeedbackQueue

namespace View

variable {P : Params} {v : View} {i : Slot} {now : Nat}

/-- A process is raised by a level, unless it is at the top. -/
def Climbs (P : Params) (i : Slot) (v w : View) : Prop :=
  min P.maxPriority ((v.record i).priority + 1) ≤ (w.record i).priority

theorem climbs_sweep (h : (v.record i).stage = .runnable) : v.Climbs P i (v.sweep P) := by
  have hactive : (v.record i).stage.isActive = true := by rw [h]; rfl
  simp only [Climbs, sweep, hactive, if_true, Process.promote]
  split
  · exact Nat.min_le_right _ _
  · rename_i hmax
    exact Nat.le_trans (Nat.min_le_left _ _) (Nat.le_of_not_lt hmax)

theorem climbs_sweepIfDue (h : (v.record i).stage = .runnable)
    (hdue : v.sweepAt ≤ now ∧ 0 < P.maxPriority) : v.Climbs P i (v.sweepIfDue P now) := by
  rw [sweepIfDue, if_pos hdue]
  exact climbs_sweep h

theorem wakeParent_sweepAt {p : Process} : (v.wakeParent p).sweepAt = v.sweepAt := by
  unfold wakeParent
  split <;> rfl

theorem climbs_reclaim {cpu : Cpu} {j : Slot} (h : (v.record i).stage = .runnable)
    (hdue : v.sweepAt ≤ now ∧ 0 < P.maxPriority) : v.Climbs P i (v.reclaim P cpu j now) := by
  have hmark : ((v.mark cpu none).record i).stage = .runnable := h
  unfold reclaim
  dsimp only
  split
  · -- the sweep comes after a wake-up, which leaves the process alone
    have hwake := (retains_wakeParent (P := P) (S := (· = i)) (p := (v.mark cpu none).record j)
      (v := v.mark cpu none) fun k hk => hk ▸ hmark).stays i rfl
    refine Nat.le_trans ?_ (climbs_sweepIfDue hwake.stage (by rwa [wakeParent_sweepAt]))
    have hle : (v.record i).priority ≤ _ := hwake.priority_le
    omega
  · exact climbs_sweepIfDue hmark hdue

end View

namespace Machine

variable {P : Params}

/-! ### Steps -/

namespace Step

/-- Whether a step dispatches a process. -/
def isDispatch (s : Step P) : Bool := (s.event.givesOut s.result).isSome

/-- A step dispatches the process of a slot. -/
def Dispatches (s : Step P) (i : Slot) (pid : Pid) : Prop :=
  ∃ cpu, s.event.givesOut s.result = some (cpu, ⟨i, pid⟩)

/-- Whether a sweep is due at a reading of the clock. -/
def isDue (s : Step P) (now : Nat) : Bool := s.before.table.sweepAt ≤ now ∧ 0 < P.maxPriority

/-- Whether a step makes a promotion sweep: on request, or where one is due when a CPU has been
taken back or has found nothing to run. -/
def isSweep (s : Step P) : Bool :=
  match s.event with
  | .start .sweep _ => true
  | .start (.sweepIfDue due) _ => s.isDue due
  | .start (.reclaim _ _) clock | .answer ⟨_, .running _ _ _⟩ _ clock => s.isDue clock.now
  | .answer ⟨_, .enabling _ _⟩ _ clock => s.isDue clock.now && !s.isDispatch
  | _ => false

end Step

variable {m m₁ : Machine P} {e : Event} {p : Progress} {i : Slot} {pid : Pid} {s : Step P}
  {steps : List (Step P)}

/-! ### Waiting for a CPU -/

/-- A process is runnable and on no CPU. -/
structure Awaits (m : Machine P) (i : Slot) (pid : Pid) : Prop where
  stage : (m.table.record i).stage = .runnable
  pid_eq : (m.table.record i).pid = pid
  free : ¬ m.table.view.Marked i

/-- Who gives out a CPU looks for a process for it. -/
theorem picksFor_of_givesOut {cpu : Cpu} {handoff : Handoff} (h : m.table.Orderly)
    (hperform : m.perform e = .ok (p, m₁)) (hout : e.givesOut p = some (cpu, handoff)) :
    e.picksFor? = some cpu := by
  obtain ⟨-, -, acts, -, hscript⟩ := of_perform_eq_ok h hperform
  rcases (Event.course_of_script hscript).quiet_or with
    ⟨-, -, hnone⟩ | ⟨cpu', handoff', now, rfl, hgives, -⟩ | ⟨_, _, _, -, -, hnone⟩
  · rw [hnone] at hout
    cases hout
  · rw [hgives] at hout
    cases hout
    exact Event.owns_of_script hscript _ List.mem_cons_self
  · rw [hnone] at hout
    cases hout

/-- A process is dispatched when its turn comes. -/
theorem of_givesOut {cpu : Cpu} {handoff : Handoff} (h : m.table.Orderly)
    (hperform : m.perform e = .ok (p, m₁)) (hout : e.givesOut p = some (cpu, handoff)) :
    m.table.next? = some handoff.slot ∧ handoff.pid = (m.table.record handoff.slot).pid ∧
      ∃ now, m₁.table.view = m.table.view.dispatch handoff.slot cpu now := by
  have hpicks := picksFor_of_givesOut h hperform hout
  obtain ⟨⟨q, t⟩, hstretch, hafter⟩ := bind_eq_ok.1 hperform
  cases hafter
  cases e with
  | start request clock =>
    cases request <;> cases hpicks
    obtain ⟨result, hdispatch, hend⟩ := bind_eq_ok.1 hstretch
    have hresult := h.yields_dispatch.of_ok hdispatch
    cases result with
    | none =>
      cases hend
      cases hout
    | some x =>
      cases hend
      cases hout
      obtain ⟨-, -, hnext, hpid, hview⟩ := hresult
      exact ⟨hnext, hpid, clock.now, hview⟩
  | answer task reply clock =>
    obtain ⟨caller, suspension⟩ := task
    cases suspension <;> cases hpicks
    obtain ⟨result, hdispatch, hend⟩ := bind_eq_ok.1 hstretch
    have hresult := h.yields_dispatch.of_ok hdispatch
    cases result with
    | none =>
      obtain ⟨t', -, hend⟩ := bind_eq_ok.1 hend
      split at hend
      · cases hend
        cases hout
      · cases hend
        cases hout
    | some x =>
      cases hend
      cases hout
      obtain ⟨-, -, hnext, hpid, hview⟩ := hresult
      exact ⟨hnext, hpid, clock.now, hview⟩

/-- Whoever is marked has been marked before, or is dispatched. -/
theorem marked_of_perform_eq_ok (h : m.table.Orderly) (hperform : m.perform e = .ok (p, m₁))
    (hmarked : m₁.table.view.Marked i) : m.table.view.Marked i ∨
      ∃ cpu pid, e.givesOut p = some (cpu, ⟨i, pid⟩) := by
  obtain ⟨cpu, hcpu⟩ := hmarked
  obtain ⟨-, -, acts, hfollows, hscript⟩ := of_perform_eq_ok h hperform
  rcases (Event.course_of_script hscript).quiet_or with
    ⟨hquiet, -⟩ | ⟨cpu', handoff, now, rfl, hgives, -⟩ | ⟨cpu', handoff, now, rfl, -⟩
  · rw [(hfollows.quiet hquiet).1] at hcpu
    exact .inl ⟨cpu, hcpu⟩
  · rw [hfollows.eq_apply] at hcpu
    rcases Act.marked_of_apply hfollows.1 hcpu with hold | ⟨pid, now', heq⟩
    · exact .inl ⟨cpu, hold⟩
    · cases heq
      exact .inr ⟨cpu, pid, hgives⟩
  · rw [hfollows.eq_apply] at hcpu
    rcases Act.marked_of_apply hfollows.1 hcpu with hold | ⟨pid, now', heq⟩
    · exact .inl ⟨cpu, hold⟩
    · cases heq

/-- **Who is neither dispatched nor put on another level goes on waiting.** -/
theorem awaits_of_perform_eq_ok (h : m.table.Orderly) (ha : m.Awaits i pid)
    (hperform : m.perform e = .ok (p, m₁)) (hassigns : ¬ e.Assigns pid)
    (hnot : ∀ cpu, e.givesOut p ≠ some (cpu, ⟨i, pid⟩)) :
    m₁.Awaits i pid ∧ m.table.view.Retains P (· = i) m₁.table.view := by
  have hout : ∀ cpu pid', e.givesOut p ≠ some (cpu, ⟨i, pid'⟩) := by
    intro cpu pid' hout
    obtain ⟨-, hpid, -⟩ := of_givesOut h hperform hout
    obtain rfl : pid' = pid := hpid.trans ha.pid_eq
    exact hnot cpu hout
  have hretains : m.table.view.Retains P (· = i) m₁.table.view := by
    refine retains_of_perform_eq_ok h hperform ?_ ?_ ?_
    · rintro j rfl
      exact ha.stage
    · rintro j rfl
      rwa [ha.pid_eq]
    · rintro j rfl
      exact hout
  have hstays := hretains.stays i rfl
  refine ⟨⟨hstays.stage, hstays.pid.trans ha.pid_eq, fun hmarked => ?_⟩, hretains⟩
  rcases marked_of_perform_eq_ok h hperform hmarked with hold | ⟨cpu, pid', hgives⟩
  · exact ha.free hold
  · exact hout cpu pid' hgives

/-- A grant retains a waiting process. -/
theorem Awaits.retains_of_grants {j : Slot} {files : Multiset FileHandle} {t : Table P}
    (ha : m.Awaits i pid) (hm : m.table.Orderly) (hgrants : m.Grants j files t) :
    m.table.view.Retains P (· = i) t.view := by
  refine hgrants.retains hm ?_
  rintro _ rfl
  exact ha.stage

/-- Who waits goes on waiting after a grant. -/
theorem Awaits.of_grants {j : Slot} {files : Multiset FileHandle} {t : Table P}
    (ha : m.Awaits i pid) (hm : m.table.Orderly) (hgrants : m.Grants j files t) :
    Awaits { m with table := t } i pid where
  stage := (hgrants.stage_eq hm i).trans ha.stage
  pid_eq := ((hgrants.calm hm).2 i).pid.trans ha.pid_eq
  free := by
    rintro ⟨cpu, hcpu⟩
    rw [(hgrants.quiet hm).1] at hcpu
    exact ha.free ⟨cpu, hcpu⟩

/-- A sweep takes a waiting process one level up. -/
theorem climbs_of_isSweep (h : m.table.Orderly) (ha : m.Awaits i pid) (hbefore : s.before = m)
    (hperform : m.perform s.event = .ok (s.result, m₁)) (hsweep : s.isSweep = true) :
    m.table.view.Climbs P i m₁.table.view := by
  obtain ⟨-, -, acts, hfollows, hscript⟩ := of_perform_eq_ok h hperform
  obtain ⟨before, e, p⟩ := s
  subst hbefore
  have hdue : ∀ {now}, Step.isDue ⟨before, e, p⟩ now = true →
      before.table.view.sweepAt ≤ now ∧ 0 < P.maxPriority := by
    intro now hnow
    simpa [Step.isDue] using hnow
  unfold Step.isSweep at hsweep
  dsimp only at hsweep hscript
  split at hsweep
  · obtain ⟨rfl, -⟩ := hscript
    rw [hfollows.eq_apply]
    exact View.climbs_sweep ha.stage
  · obtain ⟨rfl, -⟩ := hscript
    rw [hfollows.eq_apply]
    exact View.climbs_sweepIfDue ha.stage (hdue hsweep)
  · obtain ⟨rfl, -⟩ := hscript
    rw [hfollows.eq_apply]
    exact View.climbs_reclaim ha.stage (hdue hsweep)
  · obtain ⟨rfl, -⟩ := hscript
    rw [hfollows.eq_apply]
    exact View.climbs_reclaim ha.stage (hdue hsweep)
  · obtain ⟨hsweep, hidle⟩ := (Bool.and_eq_true _ _).mp hsweep
    rcases hscript with ⟨handoff, -, rfl⟩ | ⟨rfl, -⟩
    · cases hidle
    · rw [hfollows.eq_apply]
      exact View.climbs_sweepIfDue ha.stage (hdue hsweep)
  · cases hsweep

/-- A dispatch of somebody else takes one of those before a waiting process at the top. -/
theorem shorter_of_dispatch {cpu : Cpu} {handoff : Handoff} {us vs : List Slot}
    (h : m.table.Orderly) (ha : m.Awaits i pid) (hperform : m.perform e = .ok (p, m₁))
    (hout : e.givesOut p = some (cpu, handoff)) (hne : handoff.slot ≠ i)
    (htop : m.table.queue (.ready P.maxPriority) = us ++ i :: vs) :
    ∃ us' vs', us'.length < us.length ∧
      m₁.table.queue (.ready P.maxPriority) = us' ++ i :: vs' := by
  obtain ⟨hnext, -, now, hview⟩ := of_givesOut h hperform hout
  -- the search stops at the waiting process at the latest
  have hmem : handoff.slot ∈ us := by
    have hfree : m.table.isMarked i = false := by
      rw [Bool.eq_false_iff]
      exact fun hm => ha.free (Table.isMarked_iff.1 hm)
    rw [Table.next?_eq, Table.line_eq, View.line_eq_append, Table.view_queue, htop,
      List.append_assoc, List.find?_append, List.cons_append,
      List.find?_cons_of_pos (by simp [hfree])] at hnext
    rcases Option.or_eq_some_iff.1 hnext with hus | ⟨-, heq⟩
    · exact List.mem_of_find?_eq_some hus
    · exact absurd (Option.some.inj heq).symm hne
  have hqueue : m₁.table.queue (.ready P.maxPriority) =
      (us ++ i :: vs).erase handoff.slot := by
    have hhome : (m.table.record handoff.slot).home = .ready P.maxPriority :=
      ((h.sound.valid.mem_iff _ _).1 (by
        rw [Table.view_queue, htop]
        exact List.mem_append_left _ hmem)).2.1
    have hmark : (m.table.view.dispatch handoff.slot cpu now).queue =
        (m.table.view.shift handoff.slot (Process.dispatch now)).queue := rfl
    rw [← Table.view_queue, hview, hmark, View.shift_queue, Table.view_record, if_pos hhome,
      if_neg (by simp [Process.dispatch, Process.home]), List.append_nil, Table.view_queue, htop]
  refine ⟨us.erase handoff.slot, vs, ?_, ?_⟩
  · rw [List.length_erase_of_mem hmem]
    exact Nat.sub_lt (List.length_pos_of_mem hmem) Nat.one_pos
  · rw [hqueue, List.erase_append_left _ hmem]

/-! ### Runs -/

/-- **Sweeps take a waiting process to the top.** -/
theorem History.climbs (h : m.History steps m₁) (hm : m.table.Orderly) (ha : m.Awaits i pid)
    (hassigns : ∀ s ∈ steps, ¬ s.event.Assigns pid) (hnot : ∀ s ∈ steps, ¬ s.Dispatches i pid) :
    m₁.Awaits i pid ∧
      min P.maxPriority ((m.table.record i).priority + steps.countP Step.isSweep) ≤
        (m₁.table.record i).priority := by
  induction h with
  | nil => exact ⟨ha, Nat.min_le_right _ _⟩
  | @event past m₁ m₂ e p hrun _ hperform ih =>
    rw [List.forall_mem_append, List.forall_mem_singleton] at hassigns hnot
    have h₁ := hrun.orderly hm
    obtain ⟨ha₁, hle⟩ := ih hassigns.1 hnot.1
    obtain ⟨ha₂, hretains⟩ := awaits_of_perform_eq_ok h₁ ha₁ hperform hassigns.2
      fun cpu hout => hnot.2 ⟨cpu, hout⟩
    refine ⟨ha₂, ?_⟩
    have hmono : (m₁.table.record i).priority ≤ (m₂.table.record i).priority :=
      (hretains.stays i rfl).priority_le
    rw [List.countP_append, List.countP_singleton]
    by_cases hsweep : Step.isSweep ⟨m₁, e, p⟩ = true
    · have hclimbs : min P.maxPriority ((m₁.table.record i).priority + 1) ≤
          (m₂.table.record i).priority := climbs_of_isSweep h₁ ha₁ rfl hperform hsweep
      rw [if_pos hsweep]
      omega
    · rw [if_neg hsweep]
      omega
  | grant hrun hgrants ih =>
    have h₁ := hrun.orderly hm
    obtain ⟨ha₁, hle⟩ := ih hassigns hnot
    exact ⟨ha₁.of_grants h₁ hgrants,
      Nat.le_trans hle ((ha₁.retains_of_grants h₁ hgrants).stays i rfl).priority_le⟩

/-- A waiting process at the top is dispatched, or every dispatch has taken one of those before
it. -/
theorem History.dispatches_or {us vs : List Slot} (h : m.History steps m₁) (hm : m.table.Orderly)
    (ha : m.Awaits i pid) (hassigns : ∀ s ∈ steps, ¬ s.event.Assigns pid)
    (htop : m.table.queue (.ready P.maxPriority) = us ++ i :: vs) :
    (∃ pre s post, steps = pre ++ s :: post ∧ s.Dispatches i pid ∧
      pre.countP Step.isDispatch ≤ us.length) ∨
    m₁.Awaits i pid ∧ ∃ us' vs', m₁.table.queue (.ready P.maxPriority) = us' ++ i :: vs' ∧
      us'.length + steps.countP Step.isDispatch ≤ us.length := by
  induction h with
  | nil => exact .inr ⟨ha, us, vs, htop, Nat.le_refl _⟩
  | @event past m₁ m₂ e p hrun _ hperform ih =>
    rw [List.forall_mem_append, List.forall_mem_singleton] at hassigns
    have h₁ := hrun.orderly hm
    rcases ih hassigns.1 with ⟨pre, s, post, rfl, hs, hpre⟩ | ⟨ha₁, us₁, vs₁, htop₁, hle⟩
    · exact .inl ⟨pre, s, post ++ [⟨m₁, e, p⟩], by simp, hs, hpre⟩
    by_cases hs : Step.Dispatches ⟨m₁, e, p⟩ i pid
    · exact .inl ⟨past, _, [], rfl, hs, by omega⟩
    obtain ⟨ha₂, hretains⟩ := awaits_of_perform_eq_ok h₁ ha₁ hperform hassigns.2
      fun cpu hout => hs ⟨cpu, hout⟩
    refine .inr ⟨ha₂, ?_⟩
    rw [List.countP_append, List.countP_singleton]
    by_cases hdispatch : Step.isDispatch ⟨m₁, e, p⟩ = true
    · -- somebody else is dispatched
      obtain ⟨⟨cpu, handoff⟩, hout⟩ := Option.isSome_iff_exists.1 hdispatch
      have hne : handoff.slot ≠ i := by
        rintro rfl
        have hpid := (of_givesOut h₁ hperform hout).2.1.trans ha₁.pid_eq
        exact hs ⟨cpu, hout.trans (by rw [← hpid])⟩
      obtain ⟨us₂, vs₂, hlt, htop₂⟩ := shorter_of_dispatch h₁ ha₁ hperform hout hne htop₁
      refine ⟨us₂, vs₂, htop₂, ?_⟩
      rw [if_pos hdispatch]
      omega
    · obtain ⟨us₂, vs₂, hsub, htop₂⟩ := hretains.top i rfl us₁ vs₁ htop₁
      refine ⟨us₂, vs₂, htop₂, ?_⟩
      rw [if_neg hdispatch]
      exact Nat.le_trans (Nat.add_le_add_right hsub.length_le _) hle
  | grant hrun hgrants ih =>
    have h₁ := hrun.orderly hm
    rcases ih hassigns with hdone | ⟨ha₁, us₁, vs₁, htop₁, hle⟩
    · exact .inl hdone
    obtain ⟨us₂, vs₂, hsub, htop₂⟩ :=
      (ha₁.retains_of_grants h₁ hgrants).top i rfl us₁ vs₁ htop₁
    refine .inr ⟨ha₁.of_grants h₁ hgrants, us₂, vs₂, htop₂, ?_⟩
    exact Nat.le_trans (Nat.add_le_add_right hsub.length_le _) hle

/-- **Dispatches reach a waiting process at the top**: each of them takes it or one of those before
it. -/
theorem History.exists_dispatches {us vs : List Slot} (h : m.History steps m₁)
    (hm : m.table.Orderly) (ha : m.Awaits i pid) (hassigns : ∀ s ∈ steps, ¬ s.event.Assigns pid)
    (htop : m.table.queue (.ready P.maxPriority) = us ++ i :: vs)
    (hcount : us.length < steps.countP Step.isDispatch) :
    ∃ pre s post, steps = pre ++ s :: post ∧ s.Dispatches i pid ∧
      pre.countP Step.isDispatch ≤ us.length := by
  refine (h.dispatches_or hm ha hassigns htop).resolve_right ?_
  rintro ⟨-, us', -, -, hle⟩
  omega

/-- A process at the top is on the top level, behind fewer slots than the table has. -/
theorem Awaits.exists_top (ha : m.Awaits i pid) (hm : m.table.Orderly)
    (hpriority : P.maxPriority ≤ (m.table.record i).priority) :
    ∃ us vs, m.table.queue (.ready P.maxPriority) = us ++ i :: vs ∧ us.length < P.capacity := by
  have heq : (m.table.record i).priority = P.maxPriority :=
    Nat.le_antisymm (hm.sound.valid.priority_le i) hpriority
  have hlt : i < P.capacity := Table.lt_of_stage_eq ha.stage
  have hmem : i ∈ m.table.queue (.ready P.maxPriority) :=
    (hm.sound.valid.mem_iff _ i).2 ⟨hlt, Process.home_eq_ready_iff.2 ⟨ha.stage, heq⟩, nofun⟩
  obtain ⟨us, vs, htop⟩ := List.append_of_mem hmem
  refine ⟨us, vs, htop, ?_⟩
  have hlength : (m.table.queue (.ready P.maxPriority)).length ≤ P.capacity := by
    have hsub : m.table.queue (.ready P.maxPriority) ⊆ List.range P.capacity := fun j hj =>
      List.mem_range.2 ((hm.sound.valid.mem_iff _ j).1 hj).1
    simpa using (hm.sound.nodup_queue _).length_le_of_subset hsub
  rw [htop, List.length_append, List.length_cons] at hlength
  omega

/-- While a process waits, an idle CPU finds somebody. -/
theorem Awaits.dispatch_eq_ok {cpu : Cpu} (ha : m.Awaits i pid) (hm : m.table.Orderly)
    (hcpu : cpu < P.cpus) (hidle : m.table.occupant? cpu = none) (now : Nat) :
    ∃ x, m.table.dispatch cpu now = .ok (some x) := by
  have hyields : Yields _ (m.table.dispatch cpu now) _ := hm.yields_dispatch
  obtain ⟨result, hdispatch, hresult⟩ := hyields.exists_ok ⟨hcpu, hidle⟩
  cases result with
  | some x => exact ⟨x, hdispatch⟩
  | none =>
    have hmem : i ∈ m.table.members .runnable :=
      hm.sound.mem_members_iff.2 ⟨Table.lt_of_stage_eq ha.stage, ha.stage⟩
    have hmarked := List.find?_eq_none.1 hresult.2 i hmem
    exact absurd (Table.isMarked_iff.1 (by simpa using hmarked)) ha.free

/-- **Nobody starves.**  A runnable process that no CPU is marked with and that is not put on a
level by request is dispatched once as many sweeps as there are levels above it have been followed
by as many dispatches as there are slots.  Until then an idle CPU always finds somebody, and from
the top, where it has come behind `us`, it is among the next `us.length + 1` to be dispatched. -/
theorem dispatched_of_history {t : Table P} {m₀ m m₁ : Machine P}
    {past before after : List (Step P)} {now : Nat} (hcreate : Table.create P now = .ok (.ok t))
    (hrun : History { table := t } past m₀) (hrunnable : (m₀.table.record i).stage = .runnable)
    (hfree : ∀ cpu, m₀.table.occupant? cpu ≠ some i) (hbefore : m₀.History before m)
    (hafter : m.History after m₁)
    (hassigns : ∀ s ∈ before ++ after, ¬ s.event.Assigns (m₀.table.record i).pid) :
    (P.maxPriority - (m₀.table.record i).priority ≤ before.countP Step.isSweep →
      P.capacity ≤ after.countP Step.isDispatch →
        ∃ s ∈ before ++ after, s.Dispatches i (m₀.table.record i).pid) ∧
    ((∀ s ∈ before, ¬ s.Dispatches i (m₀.table.record i).pid) →
      (∀ cpu now, cpu < P.cpus → m.table.occupant? cpu = none →
        ∃ x, m.table.dispatch cpu now = .ok (some x)) ∧
      ∀ us vs, m.table.queue (.ready P.maxPriority) = us ++ i :: vs →
        us.length < after.countP Step.isDispatch → ∃ pre s post, after = pre ++ s :: post ∧
          s.Dispatches i (m₀.table.record i).pid ∧ pre.countP Step.isDispatch ≤ us.length) := by
  have h₀ := hrun.orderly (Table.orderly_of_create hcreate).1
  have ha₀ : m₀.Awaits i (m₀.table.record i).pid :=
    ⟨hrunnable, rfl, fun ⟨cpu, hcpu⟩ => hfree cpu hcpu⟩
  have hassigns₁ := fun s hs => hassigns s (List.mem_append_left after hs)
  have hassigns₂ := fun s hs => hassigns s (List.mem_append_right before hs)
  have hm := hbefore.orderly h₀
  refine ⟨fun hsweeps hdispatches => ?_, fun hnot => ?_⟩
  · by_cases hnot : ∀ s ∈ before, ¬ s.Dispatches i (m₀.table.record i).pid
    · obtain ⟨ha, hle⟩ := hbefore.climbs h₀ ha₀ hassigns₁ hnot
      obtain ⟨us, vs, htop, hlt⟩ := ha.exists_top hm (by omega)
      obtain ⟨pre, s, post, rfl, hs, -⟩ :=
        hafter.exists_dispatches hm ha hassigns₂ htop (by omega)
      exact ⟨s, by simp, hs⟩
    · simp only [not_forall, not_not] at hnot
      obtain ⟨s, hs, hdispatches⟩ := hnot
      exact ⟨s, List.mem_append_left _ hs, hdispatches⟩
  · obtain ⟨ha, -⟩ := hbefore.climbs h₀ ha₀ hassigns₁ hnot
    exact ⟨fun cpu now hcpu hidle => ha.dispatch_eq_ok hm hcpu hidle now, fun us vs htop hcount =>
      hafter.exists_dispatches hm ha hassigns₂ htop hcount⟩

/-- The root process, which has opened a file and is one level below the top, is dispatched after
one sweep and one dispatch. -/
theorem dispatched_of_demoted : ∃ (t : Table ⟨1, 1, 1, 1, 1, true⟩) (m₀ m m₁ : Machine _)
    (past before after : List (Step _)), Table.create _ 0 = .ok (.ok t) ∧
      History { table := t } past m₀ ∧ (m₀.table.record 0).files = [⟨7⟩] ∧
      (m₀.table.record 0).stage = .runnable ∧ (m₀.table.record 0).priority = 0 ∧
      m₀.History before m ∧ m.History after m₁ ∧ before.countP Step.isSweep = 1 ∧
      after.countP Step.isDispatch = 1 ∧ ∃ s ∈ before ++ after, s.Dispatches 0 1 := by
  obtain ⟨t, hcreate, hleads⟩ : ∃ t : Table ⟨1, 1, 1, 1, 1, true⟩,
      Table.create _ 0 = .ok (.ok t) ∧ Leads (fun _ _ => True)
        (fun m => ∃ t', m.Grants 0 {⟨7⟩} t' ∧ Leads (fun _ _ => True) (fun m₀ =>
          (m₀.table.record 0).files = [⟨7⟩] ∧ (m₀.table.record 0).stage = .runnable ∧
          (m₀.table.record 0).priority = 0 ∧ (m₀.table.record 0).pid = 1 ∧
          m₀.table.markers.toList = [none] ∧
          ∃ m, m₀.perform (.start .sweep 0) = .ok (.returned .done, m) ∧
            ∃ m₁, m.perform (.start (.dispatch 0) 0) =
              .ok (.returned (.dispatched (some ⟨0, 1⟩)), m₁))
          [.start (.yield 0) 0, .start (.reclaim 0 ⟨0, 1⟩) 0, .start (.setPriority 1 0) 0]
          { m with table := t' })
      [.start (.boot "" []) 0, .answer ⟨none, .allocating 0 (.root "" [])⟩ (some ⟨0⟩) 0,
        .answer ⟨none, .mapping 0 "" []⟩ (some ⟨0⟩) 0, .start (.dispatch 0) 0]
      { table := t } := by
    refine ⟨_, rfl, trivial, trivial, _, _, rfl, ?_⟩
    refine ⟨List.mem_cons_self, trivial, _, _, rfl, ?_⟩
    refine ⟨List.mem_cons_self, trivial, _, _, rfl, ?_⟩
    refine ⟨trivial, trivial, _, _, rfl, ?_⟩
    refine ⟨_, grants_of_tasks [⟨7⟩] rfl rfl rfl rfl, ?_⟩
    refine ⟨trivial, trivial, _, _, rfl, ?_⟩
    refine ⟨trivial, trivial, _, _, rfl, ?_⟩
    refine ⟨trivial, trivial, _, _, rfl, ?_⟩
    exact ⟨rfl, rfl, rfl, rfl, rfl, _, rfl, _, rfl⟩
  obtain ⟨begun, b, hbegun, -, -, t', hgrants, hleads⟩ := hleads.exists_history
  obtain ⟨past, m₀, hpast, -, -, hfiles, hstage, hpriority, hpid, hmarkers, m, hsweep, m₁,
    hdispatch⟩ := hleads.exists_history
  have hrun := (hbegun.grant hgrants).trans hpast
  have hbefore : m₀.History [⟨m₀, .start .sweep 0, .returned .done⟩] m :=
    History.nil.event trivial hsweep
  have hafter : m.History
      [⟨m, .start (.dispatch 0) 0, .returned (.dispatched (some ⟨0, 1⟩))⟩] m₁ :=
    History.nil.event trivial hdispatch
  have hfree : ∀ cpu, m₀.table.occupant? cpu ≠ some 0 := by
    intro cpu hcpu
    have hmarked := Table.isMarked_iff.2 ⟨cpu, hcpu⟩
    rw [Table.isMarked, hmarkers] at hmarked
    cases hmarked
  have hassigns : ∀ s ∈ ([⟨m₀, .start .sweep 0, .returned .done⟩] ++
      [⟨m, .start (.dispatch 0) 0, .returned (.dispatched (some ⟨0, 1⟩))⟩] : List (Step _)),
      ¬ s.event.Assigns (m₀.table.record 0).pid := by
    intro s hs ⟨priority, now, heq⟩
    rcases List.mem_cons.1 hs with rfl | hs
    · cases heq
    · obtain rfl := List.mem_singleton.1 hs
      cases heq
  have hstarves := (dispatched_of_history hcreate hrun hstage hfree hbefore hafter hassigns).1
    (by rw [hpriority]; exact Nat.le_refl 1) (Nat.le_refl 1)
  rw [hpid] at hstarves
  exact ⟨t, m₀, m, m₁, _, _, _, hcreate, hrun, hfiles, hstage, hpriority, hbefore, hafter, rfl, rfl,
    hstarves⟩

end Machine

end FeedbackQueue
