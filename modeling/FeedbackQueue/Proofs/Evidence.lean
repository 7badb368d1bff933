import FeedbackQueue.Proofs.Pids

/-!
# What a table tells of its history

In a disciplined run the records say how they have come about.  A process that has exited has asked
for it; once it is on no CPU, its CPU has been taken back from it; and the parent of a process has
forked it, unless it is the root process.

## Main definitions

* `Machine.Exited`, `Machine.Released`, `Machine.Forked` : what has happened so far.
* `Machine.Evident` : what the table tells of it.

## Main statements

* `Act.zombie_of_apply`, `Act.child_of_apply` : who exits, and who gets another parent.
* `Machine.History.evident` : disciplined histories are evident.
-/

namespace FeedbackQueue

namespace View

variable {v : View} {i : Slot}

/-- Who has exited had started. -/
theorem started_of_zombie (hi : (v.record i).stage = .zombie) : v.Started i := by
  rw [Started, hi]
  exact ⟨by decide, by decide⟩

end View

namespace Act

variable {P : Params} {v : View} {a : Act} {i j : Slot}

/-- A slot that is written is left free, with an embryo or with a process that starts, and without
a parent, unless it keeps its parent or a child starts in it. -/
theorem written_record (hi : a.writes? = some i) :
    ((a.apply P v).record i).stage ∈ [.unused, .embryo, .runnable] ∧
      (((a.apply P v).record i).parent = none ∨
        ((a.apply P v).record i).parent = (v.record i).parent ∨
        ∃ plan space files cwd, a = .launch i plan space files cwd ∧
          ((a.apply P v).record i).parent = some plan.parent) := by
  cases a with
  | conceive i now =>
    cases hi
    rw [apply, View.conceive_record, Function.update_self]
    exact ⟨by simp [Process.conceive], .inl rfl⟩
  | discard i =>
    cases hi
    rw [apply, View.discard_record, Function.update_self]
    exact ⟨by simp, .inl rfl⟩
  | abandon i =>
    cases hi
    rw [apply, View.abandon_record, Function.update_self]
    exact ⟨by simp, .inl rfl⟩
  | crown i name space =>
    cases hi
    rw [apply, View.crown_record, Function.update_self]
    exact ⟨by simp, .inr (.inl (by simp only [Process.enter, Process.crown, Process.rename]))⟩
  | launch i plan space files cwd =>
    cases hi
    rw [apply, View.launch_record, Function.update_self]
    exact ⟨by simp, .inr (.inr ⟨plan, space, files, cwd, rfl, rfl⟩)⟩
  | reap cpu me i =>
    cases hi
    rw [apply, View.reap_record, Function.update_self]
    exact ⟨by simp, .inl rfl⟩
  | _ => cases hi

/-- Who has exited has done so before, or just now. -/
theorem zombie_of_apply (h : a.Enabled v) (hi : ((a.apply P v).record i).stage = .zombie) :
    (v.record i).stage = .zombie ∨ ∃ cpu now, a = .retire cpu i now := by
  rcases a.kinds with hcalm | ⟨j, hj⟩ | ⟨cpu, j, now, rfl⟩
  · rw [← Stage.phase_eq_dead, ((calm_apply h hcalm).2 i).phase, Stage.phase_eq_dead] at hi
    exact .inl hi
  · by_cases hij : i = j
    · subst i
      have hstage := (written_record (P := P) (v := v) hj).1
      rw [hi] at hstage
      cases hstage
      contradiction
    · rw [record_of_writes hj hij] at hi
      exact .inl hi
  · by_cases hij : i = j
    · subst i
      exact .inr ⟨cpu, now, rfl⟩
    · obtain ⟨_, _, stage, _, _, e, hphase, -⟩ := v.retire_record_eq (P := P) j i now
      have hstage : stage = .zombie := by
        rw [apply, e] at hi
        exact hi
      rw [if_neg hij, hstage] at hphase
      exact .inl (Stage.phase_eq_dead.1 hphase.symm)

/-- The parent of a slot has been that before, or is the root process, or has just forked. -/
theorem child_of_apply (h : a.Enabled v) (hc : (a.apply P v).Child i j) :
    v.Child i j ∨ v.root = some j ∨
      ∃ plan space files cwd, a = .launch i plan space files cwd ∧ plan.parent = j := by
  unfold View.Child at hc ⊢
  rcases a.kinds with hcalm | ⟨k, hk⟩ | ⟨cpu, k, now, rfl⟩
  · rw [((calm_apply h hcalm).2 i).parent] at hc
    exact .inl hc
  · by_cases hik : i = k
    · subst i
      rcases (written_record (P := P) (v := v) hk).2 with
        hnone | hsame | ⟨plan, space, files, cwd, ha, hparent⟩
      · cases hnone.symm.trans hc
      · exact .inl (hsame.symm.trans hc)
      · exact .inr (.inr ⟨plan, space, files, cwd, ha, Option.some.inj (hparent.symm.trans hc)⟩)
    · rw [record_of_writes hk hik] at hc
      exact .inl hc
  · rcases View.retire_parent (P := P) (v := v) (i := k) (j := i) now with hsame | hroot
    · exact .inl (hsame.symm.trans hc)
    · exact .inr (.inl (hroot.symm.trans hc))

end Act

/-! ### What has happened -/

namespace Machine

variable {P : Params} {m m₁ : Machine P} {e : Event} {p : Progress}
  {past later steps : List (Step P)} {s : Step P} {i j : Slot} {parent child pid : Pid} {cpu : Cpu}

/-- The process that is asked to exit. -/
def Step.exits? (s : Step P) : Option Pid := s.event.exits?.bind s.before.pidOn

/-- The process that a CPU is taken back from. -/
def Step.takesBack? (s : Step P) : Option Pid := s.event.givesBack.map fun back => back.2.pid

/-- A fork by one process has come to another one. -/
def Step.Forks (s : Step P) (parent child : Pid) : Prop :=
  s.result = .returned (.created (.ok child)) ∧ s.before.caller s.event = some parent

/-- A process has been asked to exit. -/
def Exited (past : List (Step P)) (pid : Pid) : Prop := ∃ s ∈ past, s.exits? = some pid

/-- A process has been asked to exit, and its CPU has been taken back from it since. -/
def Released (past : List (Step P)) (pid : Pid) : Prop :=
  ∃ earlier s since, past = earlier ++ s :: since ∧ Exited earlier pid ∧ s.takesBack? = some pid

/-- A process has forked another one. -/
def Forked (past : List (Step P)) (parent child : Pid) : Prop := ∃ s ∈ past, s.Forks parent child

theorem Exited.append (h : Exited past pid) : Exited (past ++ later) pid := by
  obtain ⟨s, hs, hexits⟩ := h
  exact ⟨s, List.mem_append_left _ hs, hexits⟩

theorem Released.append (h : Released past pid) : Released (past ++ later) pid := by
  obtain ⟨earlier, s, since, rfl, hexited, hback⟩ := h
  exact ⟨earlier, s, since ++ later, by rw [List.append_assoc, List.cons_append], hexited, hback⟩

theorem Forked.append (h : Forked past parent child) : Forked (past ++ later) parent child := by
  obtain ⟨s, hs, hforks⟩ := h
  exact ⟨s, List.mem_append_left _ hs, hforks⟩

theorem exited_last (h : s.exits? = some pid) : Exited (past ++ [s]) pid :=
  ⟨s, List.mem_append_right _ List.mem_cons_self, h⟩

/-! ### One event -/

/-- A process that has started was there before, under the same pid. -/
theorem pid_of_started (h : m.table.Orderly) (hperform : m.perform e = .ok (p, m₁))
    (hi : m₁.table.view.Started i) : (m₁.table.record i).pid = (m.table.record i).pid := by
  rcases kept_or_allocated h hperform hi.1 with ⟨-, hpid⟩ | ⟨-, hsteady⟩
  · exact hpid
  · exact absurd (Stage.phase_eq_unborn.1 hsteady.phase) hi.2

/-- The root process stays. -/
theorem root_of_perform_eq_ok (h : m.table.Orderly) (hperform : m.perform e = .ok (p, m₁))
    (hroot : m.table.root = some i) : m₁.table.root = some i := by
  obtain ⟨-, -, acts, hfollows, -⟩ := of_perform_eq_ok h hperform
  refine hfollows.preserves (I := fun v => v.root = some i) hroot fun v a _ he hv => ?_
  rcases Act.root_apply (P := P) he with hsame | ⟨j, name, space, rfl, -⟩
  · exact hsame.trans hv
  · cases he.1.symm.trans hv

/-- Who has exited has done so before, or does so on a CPU. -/
theorem zombie_or_exits (h : m.table.Orderly) (hperform : m.perform e = .ok (p, m₁))
    (hi : (m₁.table.record i).stage = .zombie) : (m.table.record i).stage = .zombie ∨
      ∃ cpu, m.table.occupant? cpu = some i ∧ m₁.table.occupant? cpu = some i ∧
        (e.exits? = some cpu ∨ e.closes? = some cpu) := by
  rw [← Stage.phase_eq_dead] at hi
  cases does_of_perform_eq_ok h hperform with
  | steady _ hsteady => exact .inl (Stage.phase_eq_dead.1 ((hsteady.record i).phase.symm.trans hi))
  | @deed d u a _ _ howns hu he hw =>
    have happly := Stage.phase_eq_dead.1 ((hw.record i).phase.symm.trans hi)
    rcases Act.zombie_of_apply he happly with hzombie | ⟨cpu, now, rfl⟩
    · rw [← Stage.phase_eq_dead, (hu.record i).phase] at hzombie
      exact .inl (Stage.phase_eq_dead.1 hzombie)
    · have hmarker : u.marker cpu = some i := he.1
      refine .inr ⟨cpu, ?_, ?_, howns⟩
      · rw [← Table.view_marker, ← hu.marker]
        exact hmarker
      · rw [← Table.view_marker, hw.marker, Act.apply, View.retire_marker]
        exact hmarker

/-- Who is not on a CPU any more has had it taken back. -/
theorem takesBack_of_unmarked (h : m.table.Orderly) (hv : m.table.view.AllStarted)
    (hb : m.Balanced) (hd : m.Disciplined e) (hperform : m.perform e = .ok (p, m₁))
    (hi : m.table.view.Marked i) (hi₁ : ¬ m₁.table.view.Marked i) :
    Step.takesBack? ⟨m, e, p⟩ = some (m.table.record i).pid := by
  obtain ⟨cpu, hcpu⟩ := hi
  have hs : m.table.view.Serves cpu ⟨i, (m.table.record i).pid⟩ := ⟨hcpu, rfl⟩
  cases (turns_of_perform_eq_ok h hv hperform).2 with
  | quiet hserves => exact absurd ⟨cpu, ((hserves _ _).2 hs).1⟩ hi₁
  | dispatch _ _ hserves => exact absurd ⟨cpu, ((hserves _ _).2 (.inr hs)).1⟩ hi₁
  | @reclaim cpu' handoff _ hserves hback =>
    have hsame : cpu = cpu' := by
      by_contra hne
      exact hi₁ ⟨cpu, ((hserves _ _).2 ⟨hne, hs⟩).1⟩
    subst hsame
    -- the handoff is the one that is out for the CPU
    have hhandoff := hs.eq ((hb.2 _ _).1 (hd.reclaims _ _ hback).1)
    rw [Step.takesBack?, hback, ← hhandoff]
    rfl

end Machine

namespace Table

variable {P : Params} {t t' : Table P} {i : Slot} {plan : Blueprint} {space : AddressSpace}
  {copies files : List FileHandle} {cwd : Option FileHandle} {p : Progress} {d : Deed}

/-- A fork that ends well comes to the pid of the child. -/
theorem Orderly.of_finishFork (h : t.Orderly)
    (hfork : t.finishFork i plan space files cwd = .ok (p, t')) :
    p = .returned (.created (.ok (t.record i).pid)) := by
  obtain ⟨⟨pid, t₁⟩, hlaunch, hend⟩ := bind_eq_ok.1 hfork
  obtain ⟨-, hpid, -⟩ := h.yields_launch.of_ok hlaunch
  cases hend
  rw [hpid]

theorem Orderly.of_duplicateFiles (h : t.Orderly)
    (hfork : t.duplicateFiles i plan space copies files = .ok (p, t'))
    (hp : p.launches i plan = some d) : p = .returned (.created (.ok (t.record i).pid)) := by
  cases files with
  | cons file rest =>
    cases hfork
    cases hp
  | nil =>
    unfold duplicateFiles at hfork
    cases hcwd : plan.cwd with
    | some dir =>
      rw [hcwd] at hfork
      cases hfork
      cases hp
    | none =>
      rw [hcwd] at hfork
      exact h.of_finishFork hfork

end Table

namespace Machine

variable {P : Params} {m m₁ : Machine P} {e : Event} {p : Progress} {past steps : List (Step P)}
  {i j : Slot}

/-- A fork whose child starts comes to the pid of the child. -/
theorem of_launches (h : m.table.Orderly) (hperform : m.perform e = .ok (p, m₁))
    (hi : e.slot? = some i) (hdeed : e.deed? p = some (.launch i j)) :
    p = .returned (.created (.ok (m.table.record i).pid)) ∧
      ∃ plan, e.plan? = some plan ∧ plan.parent = j := by
  obtain ⟨⟨p', t⟩, hstretch, hafter⟩ := bind_eq_ok.1 hperform
  cases hafter
  cases e with
  | start => cases hi
  | answer task reply clock =>
    obtain ⟨caller, s⟩ := task
    cases s with
    | allocating k purpose =>
      cases reply with
      | none => cases hdeed
      | some stack =>
        cases purpose with
        | bare | root => cases hdeed
        | child plan =>
          obtain ⟨-, hdeed⟩ := Option.ite_none_right_eq_some.1 hdeed
          cases hdeed
    | mapping k name image => cases reply <;> cases hdeed
    | copying k plan source =>
      cases hi
      cases reply with
      | none => cases hdeed
      | some space =>
        have hp := h.of_duplicateFiles hstretch hdeed
        rw [hp] at hdeed
        cases hdeed
        exact ⟨hp, plan, rfl, rfl⟩
    | duplicating k plan space copies file rest =>
      cases hi
      have hp := h.of_duplicateFiles hstretch hdeed
      rw [hp] at hdeed
      cases hdeed
      exact ⟨hp, plan, rfl, rfl⟩
    | duplicatingCwd k plan space copies dir =>
      cases hi
      have hp := h.of_finishFork hstretch
      rw [hp] at hdeed
      cases hdeed
      exact ⟨hp, plan, rfl, rfl⟩
    | _ => cases hi

/-- What the table tells of a disciplined run. -/
structure Evident (past : List (Step P)) (m : Machine P) : Prop where
  /-- Who closes its files has been asked to exit. -/
  closing : ∀ task ∈ m.tasks, ∀ cpu, task.suspension.closes? = some cpu →
    ∃ pid, task.caller = some pid ∧ Exited past pid
  /-- So has who has exited. -/
  exited : ∀ i, (m.table.record i).stage = .zombie → Exited past (m.table.record i).pid
  /-- Who has exited and is on no CPU has had it taken back. -/
  released : ∀ i, (m.table.record i).stage = .zombie → ¬ m.table.view.Marked i →
    Released past (m.table.record i).pid
  /-- A parent is the root process, or has forked. -/
  forked : ∀ i j, m.table.view.Child i j → m.table.root = some j ∨
    Forked past (m.table.record j).pid (m.table.record i).pid

namespace Evident

variable {files : Multiset FileHandle} {t : Table P}

/-- The process on a CPU that is asked to exit. -/
theorem exits_eq {cpu : Cpu} (he : e.exits? = some cpu) (hi : m.table.occupant? cpu = some i) :
    Step.exits? ⟨m, e, p⟩ = some (m.table.record i).pid := by
  simp [Step.exits?, he, pidOn, hi]

/-- Who closes files after an event has been asked to exit. -/
theorem closing_after {t : Table P} (h : Evident past m) (hd : m.Disciplined e)
    (hcan : m.CanHappen e) {acts : List Act} (hcourse : e.Course acts p) {task : Task}
    (htask : task ∈ (m.after e p t).tasks) {cpu : Cpu} (hcpu : task.suspension.closes? = some cpu) :
    ∃ pid, task.caller = some pid ∧ Exited (past ++ [⟨m, e, p⟩]) pid := by
  rcases mem_tasks_after htask with htask | ⟨s, rfl, rfl⟩
  · obtain ⟨pid, hcaller, hexited⟩ := h.closing task (mem_of_mem_others htask) cpu hcpu
    exact ⟨pid, hcaller, hexited.append⟩
  · cases hcourse with
    | neutral _ _ hnone | fork _ _ _ hnone => cases hcpu.symm.trans hnone
    | launch _ hplain | reap _ hplain | dispatch _ _ hplain | reclaim _ _ hplain =>
      cases hcpu.symm.trans hplain.2
    | @surrender cpu' i _ hexits hsame =>
      obtain ⟨j, hw⟩ := hd.works cpu' (Event.cpu_of_exits hexits)
      exact ⟨_, hw.pid_eq, exited_last (exits_eq hexits hw.marker)⟩
    | @close task _ cpu' _ _ he hcloses =>
      subst he
      obtain ⟨pid, hcaller, hexited⟩ := h.closing task hcan cpu' hcloses
      exact ⟨pid, hcaller, hexited.append⟩
    | exit _ hswitched | retire _ _ hswitched | leave _ _ hswitched =>
      cases hswitched.symm.trans (s.isSwitched_of_closes hcpu)

/-- Who exits in an event has been asked to. -/
theorem exited_after (h : Evident past m) (hk : m.Kept) (hcan : m.CanHappen e)
    (hperform : m.perform e = .ok (p, m₁)) (hi : (m₁.table.record i).stage = .zombie) :
    Exited (past ++ [⟨m, e, p⟩]) (m₁.table.record i).pid := by
  have hm := hk.regular.orderly
  rw [pid_of_started hm hperform (View.started_of_zombie hi)]
  rcases zombie_or_exits hm hperform hi with hzombie | ⟨cpu, hcpu, -, hexits | hcloses⟩
  · exact (h.exited i hzombie).append
  · exact exited_last (exits_eq hexits hcpu)
  · -- its files have been closed for it
    cases e with
    | start => cases hcloses
    | answer task reply clock =>
      obtain ⟨j, hw, -⟩ := hk.regular.attended.closing task hcan cpu hcloses
      obtain rfl : j = i := Option.some.inj (hw.marker.symm.trans hcpu)
      obtain ⟨pid, hcaller, hexited⟩ := h.closing task hcan cpu hcloses
      obtain rfl := Option.some.inj (hcaller.symm.trans hw.pid_eq)
      exact hexited.append

/-- Who has left its CPU for good in an event has had it taken back. -/
theorem released_after (h : Evident past m) (hk : m.Kept) (hb : m.Balanced) (hd : m.Disciplined e)
    (hperform : m.perform e = .ok (p, m₁)) (hi : (m₁.table.record i).stage = .zombie)
    (hfree : ¬ m₁.table.view.Marked i) :
    Released (past ++ [⟨m, e, p⟩]) (m₁.table.record i).pid := by
  have hm := hk.regular.orderly
  rw [pid_of_started hm hperform (View.started_of_zombie hi)]
  rcases zombie_or_exits hm hperform hi with hzombie | ⟨cpu, -, hcpu, -⟩
  · by_cases hmarked : m.table.view.Marked i
    · exact ⟨past, _, [], rfl, h.exited i hzombie,
        takesBack_of_unmarked hm hk.regular.started hb hd hperform hmarked hfree⟩
    · exact (h.released i hzombie hmarked).append
  · exact absurd ⟨cpu, hcpu⟩ hfree

/-- A parent after an event is the root process, or has forked. -/
theorem forked_after (h : Evident past m) (hk : m.Kept) (hcan : m.CanHappen e) (hk₁ : m₁.Kept)
    (hperform : m.perform e = .ok (p, m₁)) (hj : m₁.table.view.Child i j) :
    m₁.table.root = some j ∨
      Forked (past ++ [⟨m, e, p⟩]) (m₁.table.record j).pid (m₁.table.record i).pid := by
  have hm := hk.regular.orderly
  have htree := hk₁.regular.tree
  have hi : m₁.table.view.Started i := by
    by_contra hnot
    cases (htree.orphan i hnot).symm.trans hj
  rw [pid_of_started hm hperform hi, pid_of_started hm hperform (htree.parent i j hj).started]
  have hold (hchild : m.table.view.Child i j) : m₁.table.root = some j ∨
      Forked (past ++ [⟨m, e, p⟩]) (m.table.record j).pid (m.table.record i).pid :=
    (h.forked i j hchild).imp (root_of_perform_eq_ok hm hperform) Forked.append
  cases does_of_perform_eq_ok hm hperform with
  | steady _ hsteady => exact hold ((hsteady.record i).parent.symm.trans hj)
  | @deed d u a hdeed ha howns hu he hw =>
    have happly : (a.apply P u).Child i j := (hw.record i).parent.symm.trans hj
    rcases Act.child_of_apply he happly with
      hchild | hroot | ⟨plan, space, files, cwd, rfl, rfl⟩
    · exact hold ((hu.record i).parent.symm.trans hchild)
    · exact .inl (root_of_perform_eq_ok hm hperform (hu.root.symm.trans hroot))
    · -- the process that forks is the one at work on the request
      cases ha
      obtain ⟨hp, plan', hplan, hparent⟩ := of_launches hm hperform howns hdeed
      cases e with
      | start => cases hplan
      | answer task reply clock =>
        obtain ⟨cpu, hworks⟩ := hk.regular.attended.plans task hcan plan' hplan
        have hcaller := hworks.pid_eq
        rw [hparent] at hcaller
        exact .inr ⟨_, List.mem_append_right _ List.mem_cons_self, hp, hcaller⟩

theorem of_perform_eq_ok (h : Evident past m) (hk : m.Kept) (hb : m.Balanced)
    (hd : m.Disciplined e) (hcan : m.CanHappen e) (hperform : m.perform e = .ok (p, m₁)) :
    Evident (past ++ [⟨m, e, p⟩]) m₁ where
  closing task htask cpu hcpu := by
    obtain ⟨-, hafter, acts, -, hscript⟩ := Machine.of_perform_eq_ok hk.regular.orderly hperform
    rw [hafter] at htask
    exact h.closing_after hd hcan (Event.course_of_script hscript) htask hcpu
  exited _ hi := h.exited_after hk hcan hperform hi
  released _ hi hfree := h.released_after hk hb hd hperform hi hfree
  forked _ _ hj := h.forked_after hk hcan (hk.of_perform_eq_ok hd hcan hperform) hperform hj

theorem of_grants (h : Evident past m) (hm : m.table.Orderly) (hgrants : m.Grants i files t) :
    Evident past { m with table := t } := by
  have hsteady := hgrants.steady hm
  have hstage : ∀ j, (t.record j).stage = .zombie → (m.table.record j).stage = .zombie := by
    intro j hj
    rw [← Stage.phase_eq_dead, ← Table.view_record, (hsteady.record j).phase,
      Stage.phase_eq_dead] at hj
    exact hj
  have hpid : ∀ j, (t.record j).pid = (m.table.record j).pid := fun j => (hsteady.record j).pid
  refine ⟨h.closing, fun j hj => ?_, fun j hj hfree => ?_, fun j k hk => ?_⟩
  · rw [hpid]
    exact h.exited j (hstage j hj)
  · rw [hpid]
    refine h.released j (hstage j hj) ?_
    rwa [View.Marked, ← hsteady.marker]
  · rw [hpid, hpid]
    have hroot : t.root = m.table.root := hsteady.root
    rw [hroot]
    exact h.forked j k ((hsteady.record j).parent.symm.trans hk)

end Evident

theorem evident_of_create {t : Table P} {now : Nat} (hcreate : Table.create P now = .ok (.ok t)) :
    Evident [] { table := t } := by
  have hrecord : ∀ i, t.record i = {} := fun i =>
    congrFun (congrArg View.record (Table.orderly_of_create hcreate).2) i
  refine ⟨nofun, fun i hi => ?_, fun i hi => ?_, fun i j hj => ?_⟩
  · cases (congrArg Process.stage (hrecord i)).symm.trans hi
  · cases (congrArg Process.stage (hrecord i)).symm.trans hi
  · cases (congrArg Process.parent (hrecord i)).symm.trans hj

/-- **Disciplined histories are evident.** -/
theorem History.evident (h : m.History steps m₁) (hk : m.Kept) (hb : m.Balanced)
    (hm : Evident [] m) (hdisciplined : ∀ s ∈ steps, s.before.Disciplined s.event) :
    Evident steps m₁ := by
  induction h with
  | nil => exact hm
  | event hrun hcan hperform ih =>
    obtain ⟨hpast, hlast⟩ := List.forall_mem_append.1 hdisciplined
    exact (ih hpast).of_perform_eq_ok (hrun.kept hk hpast) (hrun.balanced hk hb hpast)
      (hlast _ List.mem_cons_self) hcan hperform
  | grant hrun hgrants ih =>
    exact (ih hdisciplined).of_grants (hrun.kept hk hdisciplined).regular.orderly hgrants

end Machine

end FeedbackQueue
