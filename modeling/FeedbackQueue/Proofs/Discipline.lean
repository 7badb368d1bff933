import FeedbackQueue.Proofs.Handoffs

/-!
# Disciplined runs

Kernel code follows rules that a table does not check: what happens on behalf of a process happens
on its CPU while it is running, one thing at a time, and a CPU is taken back with its handoff once
its process has left the running stage.  In a run that keeps to these rules a process that forks or
closes its files stays where it is until it is done.

## Main definitions

* `Machine.Disciplined` : an event keeps to the rules.
* `Machine.Considerate` : it does not put a process to sleep on another, either.
* `View.Works` : a process runs on a CPU.
* `Machine.Attended` : the requests that are under way have their process at work.

## Main statements

* `Machine.attended_of_perform_eq_ok` : disciplined events keep it so.
-/

namespace FeedbackQueue

namespace Act

/-- The process that an act takes off its CPU, by its own doing. -/
def ends? : Act → Option Slot
  | retire _ i _ | await _ i _ | park _ i _ _ | yield _ i _ => some i
  | _ => none

/-- Only its own doing takes a running process to another stage. -/
theorem ends_of_moves {v : View} {a : Act} {i : Slot} (h : a.Enabled v)
    (hrunning : (v.record i).stage = .running) (hi : a.moves? = some i) : a.ends? = some i := by
  have hne : ∀ s : Stage, s ≠ .running → (v.record i).stage ≠ s := by
    intro s hs he
    rw [hrunning] at he
    exact hs he.symm
  cases a <;> cases hi
  case retire | await | park | yield => rfl
  case conceive => exact absurd h.2 (hne _ nofun)
  case discard | abandon | launch => exact absurd h (hne _ nofun)
  case crown => exact absurd h.2 (hne _ nofun)
  case reap => exact absurd h.2.1 (hne _ nofun)
  case dispatch => exact absurd h.2.1 (hne _ nofun)

theorem ends_of_neutral {a : Act} (h : a.isNeutral = true) : a.ends? = none := by
  cases a <;> first | rfl | cases h

end Act

namespace View

variable {P : Params} {v w : View} {a : Act} {acts : List Act} {cpu : Cpu} {i : Slot}
  {pid : Option Pid}

/-- The process with a pid runs on a CPU, in a slot. -/
structure Works (v : View) (cpu : Cpu) (i : Slot) (pid : Option Pid) : Prop where
  marker : v.marker cpu = some i
  running : (v.record i).stage = .running
  pid_eq : pid = some (v.record i).pid

/-- A process stays at work unless it takes itself off its CPU, or the CPU is taken back. -/
theorem Works.apply (h : v.Works cpu i pid) (he : a.Enabled v) (hends : a.ends? ≠ some i)
    (hreclaim : ∀ now, a ≠ .reclaim cpu i now) : (a.apply P v).Works cpu i pid := by
  have hi : v.Started i := by simp [Started, h.running]
  have hmoves : a.moves? ≠ some i := fun hmoves => hends (Act.ends_of_moves he h.running hmoves)
  refine ⟨Act.marker_apply he h.marker ?_, Act.running_apply he h.running hmoves, ?_⟩
  · rintro j now rfl
    have hj : v.marker cpu = some j := he
    rw [h.marker] at hj
    cases hj
    exact hreclaim now rfl
  · rw [(Act.started_apply (P := P) he hi ?_).2]
    · exact h.pid_eq
    · rintro j hj rfl
      refine hmoves ?_
      cases a <;> cases hj <;> rfl

/-- A process that is given files stays at work. -/
theorem Works.equip {j : Slot} {files : List FileHandle} {cwd : Option FileHandle}
    (h : v.Works cpu i pid) : (v.revise j (Process.equip files cwd)).Works cpu i pid where
  marker := h.marker
  running := equip_stage.trans h.running
  pid_eq := h.pid_eq.trans (congrArg some (calm_equip.2 i).pid.symm)

/-- A process at work does not become the root process. -/
theorem Works.root_ne (h : v.Works cpu i pid) (he : a.Enabled v) (hroot : v.root ≠ some i) :
    (a.apply P v).root ≠ some i := by
  rcases Act.root_apply (P := P) he with hsame | ⟨j, name, space, rfl, hj⟩
  · rwa [hsame]
  · rw [hj]
    rintro ⟨⟩
    have hembryo : (v.record i).stage = .embryo := he.2
    rw [h.running] at hembryo
    cases hembryo

/-- Acts that neither take a process off its CPU nor take the CPU back. -/
def Spares (cpu : Cpu) (i : Slot) (acts : List Act) : Prop :=
  ∀ a ∈ acts, a.ends? ≠ some i ∧ ∀ now, a ≠ .reclaim cpu i now

theorem spares_of_neutral (h : ∀ a ∈ acts, a.isNeutral = true) : Spares cpu i acts := by
  refine fun a ha => ⟨by simp [Act.ends_of_neutral (h a ha)], ?_⟩
  rintro now rfl
  cases h _ ha

/-- Acts that leave a process at work. -/
theorem Works.follows (h : v.Works cpu i pid) (hfollows : v.Follows P acts w)
    (hacts : Spares cpu i acts) :
    w.Works cpu i pid ∧ (v.root ≠ some i → w.root ≠ some i) := by
  refine hfollows.preserves (I := fun w => w.Works cpu i pid ∧
    (v.root ≠ some i → w.root ≠ some i)) ⟨h, id⟩ ?_
  rintro u a ha he ⟨hu, hroot⟩
  exact ⟨hu.apply he (hacts a ha).1 (hacts a ha).2, fun hv => hu.root_ne he (hroot hv)⟩

end View

namespace Machine

variable {P : Params} {m m₁ : Machine P} {e : Event} {p : Progress} {task other : Task} {cpu : Cpu}
  {i : Slot}

/-- The rules for events.  What happens for a process happens on its CPU, while it is running and
nothing else is under way for it; and a CPU is taken back with a handoff that is out, once its
process has left the running stage. -/
structure Disciplined (m : Machine P) (e : Event) : Prop where
  works : ∀ cpu, e.cpu? = some cpu → ∃ i, m.table.view.Works cpu i (m.caller e)
  alone : ∀ cpu, e.cpu? = some cpu → ∀ task ∈ m.tasks, task.caller = m.caller e →
    task.suspension.isSwitched = true
  reclaims : ∀ cpu handoff, e.givesBack = some (cpu, handoff) →
    (cpu, handoff) ∈ m.handoffs ∧ (m.table.record handoff.slot).stage ≠ .running

/-- An event on behalf of the process at work on a CPU, while all requests that wait have switched
away. -/
theorem disciplined_of_works (hcpu : e.cpu? = some cpu) (hback : e.givesBack = none)
    (hw : m.table.view.Works cpu i (m.caller e))
    (hswitched : ∀ task ∈ m.tasks, task.suspension.isSwitched = true) : m.Disciplined e := by
  refine ⟨?_, fun _ _ task htask _ => hswitched task htask, ?_⟩
  · rw [hcpu]
    rintro cpu' ⟨⟩
    exact ⟨i, hw⟩
  · simp [hback]

/-- A CPU that is taken back with a handoff that is out. -/
theorem disciplined_of_reclaim {handoff : Handoff} (hcpu : e.cpu? = none)
    (hback : e.givesBack = some (cpu, handoff)) (hout : (cpu, handoff) ∈ m.handoffs)
    (hstage : (m.table.record handoff.slot).stage ≠ .running) : m.Disciplined e := by
  refine ⟨?_, ?_, ?_⟩
  · simp [hcpu]
  · simp [hcpu]
  · rw [hback]
    rintro _ _ ⟨⟩
    exact ⟨hout, hstage⟩

/-- A disciplined event, other than a sleep on a process. -/
structure Considerate (m : Machine P) (e : Event) : Prop where
  disciplined : m.Disciplined e
  channel : ∀ cpu pid clock, e ≠ .start (.sleep cpu (.process pid)) clock

/-- An event on nobody's behalf that takes no CPU back. -/
theorem considerate_of_none (hcpu : e.cpu? = none) (hback : e.givesBack = none) :
    m.Considerate e := by
  refine ⟨⟨?_, ?_, ?_⟩, ?_⟩
  · simp [hcpu]
  · simp [hcpu]
  · simp [hback]
  · rintro cpu pid clock rfl
    cases hcpu

/-- An event on behalf of the process at work on a CPU, while no request waits. -/
theorem considerate_of_works (hcpu : e.cpu? = some cpu) (hback : e.givesBack = none)
    (hchannel : ∀ cpu pid clock, e ≠ .start (.sleep cpu (.process pid)) clock)
    (htasks : m.tasks = []) (hw : m.table.view.Works cpu i (m.caller e)) : m.Considerate e :=
  ⟨disciplined_of_works hcpu hback hw (by simp [htasks]), hchannel⟩

/-- Of two requests of one process, one has switched away. -/
def Apart (a b : Task) : Prop :=
  a.caller = b.caller → a.caller ≠ none →
    a.suspension.isSwitched = true ∨ b.suspension.isSwitched = true

/-- Requests that are under way have their process at work, and no two of them the same. -/
structure Attended (m : Machine P) : Prop where
  plans : ∀ task ∈ m.tasks, ∀ plan, task.suspension.plan? = some plan →
    ∃ cpu, m.table.view.Works cpu plan.parent task.caller
  closing : ∀ task ∈ m.tasks, ∀ cpu, task.suspension.closes? = some cpu →
    ∃ i, m.table.view.Works cpu i task.caller ∧ m.table.root ≠ some i
  apart : m.tasks.Pairwise Apart

theorem attended_of_tasks (h : m.tasks = []) : m.Attended := by
  refine ⟨?_, ?_, ?_⟩ <;> rw [h]
  · exact fun task htask => absurd htask List.not_mem_nil
  · exact fun task htask => absurd htask List.not_mem_nil
  · exact .nil

theorem Apart.symm (h : Apart task other) : Apart other task := fun heq hne =>
  (h heq.symm (heq ▸ hne)).symm

/-- The requests that wait, other than the one that an event answers. -/
def others (m : Machine P) : Event → List Task
  | .start _ _ => m.tasks
  | .answer task _ _ => m.tasks.erase task

theorem mem_of_mem_others (h : other ∈ m.others e) : other ∈ m.tasks := by
  cases e with
  | start => exact h
  | answer => exact List.mem_of_mem_erase h

/-- The request that an event answers is apart from the others. -/
theorem Attended.apart_answer {reply : task.suspension.call.Answer} {clock : Clock}
    (h : m.Attended) (htask : task ∈ m.tasks)
    (hother : other ∈ m.others (.answer task reply clock)) : Apart task other := by
  have hperm := List.perm_cons_erase htask
  have hpairwise := (hperm.pairwise_iff fun h => Apart.symm h).1 h.apart
  exact List.rel_of_pairwise_cons hpairwise hother

/-- A wait or a timed sleep that goes on after a switch is an event of its process; after any other
switch nothing is left to do. -/
theorem ends_of_switched {reply : task.suspension.call.Answer} {clock : Clock} {acts : List Act}
    (hswitched : task.suspension.isSwitched = true)
    (h : Script.resume clock task.suspension reply acts p) :
    (∃ cpu, (Event.answer task reply clock).cpu? = some cpu) ∨
      ∃ outcome, p = .returned outcome := by
  obtain ⟨caller, s⟩ := task
  cases s with
  | switching cpu resumption =>
    cases resumption with
    | wait | sleepFor => exact .inl ⟨reply, rfl⟩
    | exit | proceed => exact .inr ⟨_, h.2⟩
    | terminate => exact h.elim
  | _ => cases hswitched

/-- No event of a disciplined run disturbs another process that is at work on a request. -/
theorem Attended.spares {acts : List Act} {w : View} (h : m.Attended) (hd : m.Disciplined e)
    (hcan : m.CanHappen e) (hfollows : m.table.view.Follows P acts w) (hcourse : e.Course acts p)
    (hother : other ∈ m.others e) (hactive : other.suspension.isSwitched = false)
    (hw : m.table.view.Works cpu i other.caller) : View.Spares cpu i acts := by
  -- The process of the event is another one: nothing else is under way for it.
  have hmine : ∀ cpu' j, e.cpu? = some cpu' → m.table.view.marker cpu' = some j → j ≠ i := by
    rintro cpu' j hcpu hj rfl
    obtain ⟨k, hk⟩ := hd.works cpu' hcpu
    have hkj := hk.marker
    rw [hj] at hkj
    cases hkj
    have hswitched := hd.alone cpu' hcpu other (mem_of_mem_others hother)
      (hw.pid_eq.trans hk.pid_eq.symm)
    rw [hactive] at hswitched
    cases hswitched
  have hone : ∀ a : Act, (∀ j, a.ends? = some j → j ≠ i) → (∀ now, a ≠ .reclaim cpu i now) →
      a.ends? ≠ some i ∧ ∀ now, a ≠ .reclaim cpu i now := fun a ha hr => ⟨fun hi => ha i hi rfl, hr⟩
  cases hcourse with
  | neutral hacts => exact View.spares_of_neutral hacts
  | fork _ hrest =>
    refine List.forall_mem_cons.2 ⟨⟨nofun, nofun⟩, View.spares_of_neutral hrest⟩
  | launch | surrender | reap | dispatch =>
    exact List.forall_mem_singleton.2 ⟨nofun, nofun⟩
  | close => exact nofun
  | exit hexits =>
    obtain ⟨-, he, -⟩ := hfollows
    refine List.forall_mem_cons.2 ⟨⟨nofun, nofun⟩, List.forall_mem_singleton.2 (hone _ ?_ nofun)⟩
    rintro j ⟨⟩
    exact hmine _ _ (Event.cpu_of_exits hexits) he.1
  | @retire task _ cpu' j _ _ _ he' hcloses =>
    obtain ⟨he, -⟩ := hfollows
    subst he'
    refine List.forall_mem_singleton.2 (hone _ ?_ nofun)
    rintro k ⟨⟩ rfl
    -- the process that exits is the one whose files have been closed
    obtain ⟨k, hk, -⟩ := h.closing task hcan cpu' hcloses
    have hkj := hk.marker
    rw [he.1] at hkj
    cases hkj
    rcases h.apart_answer hcan hother (hk.pid_eq.trans hw.pid_eq.symm) (by simp [hk.pid_eq])
      with hs | hs
    · cases hs.symm.trans (task.suspension.isSwitched_of_closes hcloses)
    · cases hs.symm.trans hactive
  | @leave a cpu' j _ hcpu hleaves =>
    obtain ⟨he, -⟩ := hfollows
    refine List.forall_mem_singleton.2 ?_
    cases a <;> cases hleaves <;>
    · refine hone _ ?_ nofun
      rintro k ⟨⟩
      exact hmine _ _ hcpu he.1
  | reclaim hback =>
    refine List.forall_mem_singleton.2 ⟨nofun, ?_⟩
    rintro now ⟨⟩
    exact (hd.reclaims _ _ hback).2 hw.running

theorem tasks_after {t : Table P} : (m.after e p t).tasks =
    (match p with
      | .waiting s => [⟨m.caller e, s⟩]
      | .returned _ => []) ++ m.others e := by
  cases e <;> rfl

theorem mem_tasks_after {t : Table P} (h : other ∈ (m.after e p t).tasks) :
    other ∈ m.others e ∨ ∃ s, p = .waiting s ∧ other = ⟨m.caller e, s⟩ := by
  rw [tasks_after, List.mem_append] at h
  rcases h with h | h
  · cases p with
    | waiting s => exact .inr ⟨s, rfl, List.mem_singleton.1 h⟩
    | returned => cases h
  · exact .inl h

/-- The process of a blueprint is at work after an event that goes by it. -/
theorem Attended.works_of_plan {acts : List Act} {w : View} {s : Suspension} {plan : Blueprint}
    (h : m.Attended) (hd : m.Disciplined e) (hcan : m.CanHappen e)
    (hfollows : m.table.view.Follows P acts w) (hcourse : e.Course acts (.waiting s))
    (hplan : s.plan? = some plan) : ∃ cpu, w.Works cpu plan.parent (m.caller e) := by
  cases hcourse with
  | neutral hacts hgoes =>
    have hgoes := hgoes plan hplan
    cases e with
    | start => cases hgoes
    | answer task reply clock =>
      obtain ⟨cpu, hw⟩ := h.plans task hcan plan hgoes
      exact ⟨cpu, (hw.follows hfollows (View.spares_of_neutral hacts)).1⟩
  | @fork cpu plan' _ _ hcpu hrest hsame =>
    obtain rfl := hsame plan hplan
    obtain ⟨i, hw⟩ := hd.works cpu hcpu
    have hi := hw.marker
    rw [hfollows.1] at hi
    cases hi
    refine ⟨cpu, (hw.follows hfollows ?_).1⟩
    exact List.forall_mem_cons.2 ⟨⟨nofun, nofun⟩, View.spares_of_neutral hrest⟩
  | launch _ hplain | reap _ hplain | dispatch _ _ hplain | reclaim _ _ hplain =>
    cases hplan.symm.trans hplain.1
  | surrender _ _ hnone | close _ _ _ hnone => cases hplan.symm.trans hnone
  | exit _ hswitched | retire _ _ hswitched | leave _ _ hswitched =>
    cases hswitched.symm.trans (s.isSwitched_of_plan hplan)

/-- The process that closes its files is at work, and is not the root process. -/
theorem Attended.works_of_closes {acts : List Act} {w : View} {s : Suspension}
    (h : m.Attended) (hd : m.Disciplined e) (hcan : m.CanHappen e)
    (hfollows : m.table.view.Follows P acts w) (hcourse : e.Course acts (.waiting s))
    (hcloses : s.closes? = some cpu) : ∃ i, w.Works cpu i (m.caller e) ∧ w.root ≠ some i := by
  cases hcourse with
  | neutral _ _ hnone | fork _ _ _ hnone => cases hcloses.symm.trans hnone
  | launch _ hplain | reap _ hplain | dispatch _ _ hplain | reclaim _ _ hplain =>
    cases hcloses.symm.trans hplain.2
  | @surrender cpu' i _ hexits hsame =>
    obtain rfl := Option.some.inj (hcloses.symm.trans hsame)
    obtain ⟨j, hw⟩ := hd.works cpu (Event.cpu_of_exits hexits)
    have hj := hw.marker
    rw [hfollows.1.1] at hj
    cases hj
    obtain ⟨hw', hroot⟩ := hw.follows hfollows (List.forall_mem_singleton.2 ⟨nofun, nofun⟩)
    exact ⟨i, hw', hroot hfollows.1.2⟩
  | @close task _ cpu' _ _ he hcpu hsame =>
    obtain rfl := Option.some.inj (hcloses.symm.trans hsame)
    subst he
    obtain rfl : w = m.table.view := hfollows
    exact h.closing task hcan cpu hcpu
  | exit _ hswitched | retire _ _ hswitched | leave _ _ hswitched =>
    cases hswitched.symm.trans (s.isSwitched_of_closes hcloses)

/-- What an event leaves to be done is apart from the other requests. -/
theorem Attended.apart_after {s : Suspension} (h : m.Attended) (hd : m.Disciplined e)
    (hcan : m.CanHappen e) {acts : List Act} (hscript : e.script acts (.waiting s))
    (hother : other ∈ m.others e) : Apart ⟨m.caller e, s⟩ other := by
  intro heq hne
  have halone : ∀ cpu, e.cpu? = some cpu → other.suspension.isSwitched = true := fun cpu hcpu =>
    hd.alone cpu hcpu other (mem_of_mem_others hother) heq.symm
  cases e with
  | start request clock =>
    cases hcpu : request.cpu? with
    | none => exact absurd (by simp [caller, hcpu]) hne
    | some cpu => exact .inr (halone cpu hcpu)
  | answer task reply clock =>
    cases hswitched : task.suspension.isSwitched with
    | false =>
      rcases h.apart_answer hcan hother heq hne with hs | hs
      · rw [hswitched] at hs
        cases hs
      · exact .inr hs
    | true =>
      rcases ends_of_switched hswitched hscript with ⟨cpu, hcpu⟩ | ⟨_, hend⟩
      · exact .inr (halone cpu hcpu)
      · cases hend

/-- **Disciplined events leave every request that is under way with its process at work.** -/
theorem attended_of_perform_eq_ok (hm : m.table.Orderly) (h : m.Attended) (hd : m.Disciplined e)
    (hcan : m.CanHappen e) (hperform : m.perform e = .ok (p, m₁)) : m₁.Attended := by
  obtain ⟨-, hafter, acts, hfollows, hscript⟩ := of_perform_eq_ok hm hperform
  have hcourse := Event.course_of_script hscript
  -- the other requests are not disturbed
  have hold : ∀ cpu i, ∀ task ∈ m.others e, task.suspension.isSwitched = false →
      m.table.view.Works cpu i task.caller → m₁.table.view.Works cpu i task.caller ∧
        (m.table.root ≠ some i → m₁.table.root ≠ some i) := fun cpu i task htask hactive hw =>
    hw.follows hfollows (h.spares hd hcan hfollows hcourse htask hactive hw)
  generalize m₁.table = t at *
  subst hafter
  refine ⟨fun task htask plan hplan => ?_, fun task htask cpu hcloses => ?_, ?_⟩
  · rcases mem_tasks_after htask with htask | ⟨s, rfl, rfl⟩
    · obtain ⟨cpu, hw⟩ := h.plans task (mem_of_mem_others htask) plan hplan
      exact ⟨cpu, (hold cpu _ task htask (task.suspension.isSwitched_of_plan hplan) hw).1⟩
    · exact h.works_of_plan hd hcan hfollows hcourse hplan
  · rcases mem_tasks_after htask with htask | ⟨s, rfl, rfl⟩
    · obtain ⟨i, hw, hroot⟩ := h.closing task (mem_of_mem_others htask) cpu hcloses
      obtain ⟨hw', hroot'⟩ :=
        hold cpu i task htask (task.suspension.isSwitched_of_closes hcloses) hw
      exact ⟨i, hw', hroot' hroot⟩
    · exact h.works_of_closes hd hcan hfollows hcourse hcloses
  · have hothers : (m.others e).Pairwise Apart := by
      cases e with
      | start => exact h.apart
      | answer task => exact h.apart.sublist List.erase_sublist
    rw [tasks_after]
    cases p with
    | returned => exact hothers
    | waiting s =>
      exact List.pairwise_cons.2 ⟨fun other hother => h.apart_after hd hcan hscript hother, hothers⟩

/-- What the first fork of a root process copies. -/
def rootPlan : Blueprint where
  parent := 0
  space := some ⟨0⟩
  size := pageSize
  uid := rootUid
  gid := rootGid
  name := clipName ""
  files := []
  cwd := none

/-- A run in which the root process opens a file, forks a child and waits for it, while the child
exits and closes its duplicate of the file. -/
theorem exists_waiting : ∃ (t : Table ⟨2, 0, 1, 1, 1, true⟩) (m : Machine _),
    Table.create _ 0 = .ok (.ok t) ∧ Reaches Considerate { table := t } m ∧
      ⟨some 2, .closing 0 .exit ⟨8⟩ []⟩ ∈ m.tasks ∧ m.table.root = some 0 ∧
      (m.table.record 1).parent = some 0 ∧ (m.table.record 0).stage = .sleeping ∧
      (m.table.record 0).pid = 1 ∧ (m.table.record 0).channel = some (.process 1) := by
  obtain ⟨t, hcreate, hleads⟩ : ∃ t : Table ⟨2, 0, 1, 1, 1, true⟩,
      Table.create _ 0 = .ok (.ok t) ∧ Leads Considerate
        (fun m => ∃ t', m.Grants 0 {⟨7⟩} t' ∧ Leads Considerate (fun m =>
          ⟨some 2, .closing 0 .exit ⟨8⟩ []⟩ ∈ m.tasks ∧ m.table.root = some 0 ∧
          (m.table.record 1).parent = some 0 ∧ (m.table.record 0).stage = .sleeping ∧
          (m.table.record 0).pid = 1 ∧ (m.table.record 0).channel = some (.process 1))
          [.start (.fork 0) 0,
            .answer ⟨some 1, .allocating 1 (.child { rootPlan with files := [⟨7⟩] })⟩ (some ⟨1⟩) 0,
            .answer ⟨some 1, .copying 1 { rootPlan with files := [⟨7⟩] } ⟨0⟩⟩ (some ⟨1⟩) 0,
            .answer ⟨some 1, .duplicating 1 { rootPlan with files := [⟨7⟩] } ⟨1⟩ [] ⟨7⟩ []⟩ ⟨8⟩ 0,
            .start (.wait 0) 0, .start (.reclaim 0 ⟨0, 1⟩) 0, .start (.dispatch 0) 0,
            .start (.exit 0) 0]
          { m with table := t' })
      [.start (.boot "" []) 0, .answer ⟨none, .allocating 0 (.root "" [])⟩ (some ⟨0⟩) 0,
        .answer ⟨none, .mapping 0 "" []⟩ (some ⟨0⟩) 0, .start (.dispatch 0) 0]
      { table := t } := by
    refine ⟨_, rfl, trivial, considerate_of_none rfl rfl, _, _, rfl, ?_⟩
    refine ⟨List.mem_cons_self, considerate_of_none rfl rfl, _, _, rfl, ?_⟩
    refine ⟨List.mem_cons_self, considerate_of_none rfl rfl, _, _, rfl, ?_⟩
    refine ⟨trivial, considerate_of_none rfl rfl, _, _, rfl, ?_⟩
    refine ⟨_, grants_of_tasks [⟨7⟩] rfl rfl rfl rfl, ?_⟩
    refine ⟨trivial, considerate_of_works (i := 0) rfl rfl nofun rfl ⟨rfl, rfl, rfl⟩, _, _, rfl, ?_⟩
    refine ⟨List.mem_cons_self, considerate_of_none rfl rfl, _, _, rfl, ?_⟩
    refine ⟨List.mem_cons_self, considerate_of_none rfl rfl, _, _, rfl, ?_⟩
    refine ⟨List.mem_cons_self, considerate_of_none rfl rfl, _, _, rfl, ?_⟩
    refine ⟨trivial, considerate_of_works (i := 0) rfl rfl nofun rfl ⟨rfl, rfl, rfl⟩, _, _, rfl, ?_⟩
    refine ⟨trivial, ⟨disciplined_of_reclaim rfl rfl List.mem_cons_self nofun, nofun⟩, ?_⟩
    refine ⟨_, _, rfl, trivial, considerate_of_none rfl rfl, _, _, rfl, ?_⟩
    refine ⟨trivial, ⟨disciplined_of_works (i := 1) rfl rfl ⟨rfl, rfl, rfl⟩ ?_, nofun⟩, ?_⟩
    · exact List.forall_mem_singleton.2 rfl
    · exact ⟨_, _, rfl, List.mem_cons_self, rfl, rfl, rfl, rfl, rfl⟩
  obtain ⟨m, hrun, hend⟩ := hleads.exists_reaches_grant
  exact ⟨t, m, hcreate, hrun, hend⟩

end Machine

end FeedbackQueue
