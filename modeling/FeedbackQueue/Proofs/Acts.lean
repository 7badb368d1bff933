import FeedbackQueue.Proofs.Dispatch
import FeedbackQueue.Proofs.Family

/-!
# Acts

An operation changes a table in a few *acts*, each of which is a change of the view made while
nobody else looks.  `Act.Enabled` says when an act happens and `Act.apply` what it does, so a
property of tables is an invariant once every enabled act preserves it.

Most acts are *calm*: they make nobody be born, start, die or be reaped, and give nobody another
parent.  The others are the seven steps in the life of a process.

## Main definitions

* `Act`, `Act.Enabled`, `Act.apply` : acts as guarded changes of a view.
* `View.Follows` : a list of acts in turn.
* `Stage.Phase`, `Process.Calm` : what a calm act leaves alone.

## Main statements

* `Act.calm_apply` : calm acts are calm for every slot.
* `Act.quiet_apply` : only dispatches and reclaims change markers, and only dispatches make a slot
  running.
* `Act.scheduled_apply` : running slots stay on CPUs unless a reclaim takes the CPU of one.
-/

namespace FeedbackQueue

/-! ### Calm changes -/

/-- Part of the life of a process. -/
inductive Stage.Phase where
  /-- There is no process. -/
  | free
  /-- The process is being built. -/
  | unborn
  /-- The process lives. -/
  | alive
  /-- The process has exited. -/
  | dead
  deriving DecidableEq, Repr

/-- The phase of a stage. -/
def Stage.phase : Stage → Phase
  | .unused => .free
  | .embryo => .unborn
  | .sleeping | .runnable | .running => .alive
  | .zombie => .dead

theorem Stage.phase_eq_free {s : Stage} : s.phase = .free ↔ s = .unused := by
  cases s <;> simp [phase]

theorem Stage.phase_eq_unborn {s : Stage} : s.phase = .unborn ↔ s = .embryo := by
  cases s <;> simp [phase]

theorem Stage.phase_eq_dead {s : Stage} : s.phase = .dead ↔ s = .zombie := by
  cases s <;> simp [phase]

/-- A change of a record in which identity, parent and phase stay, and a kill is not forgotten. -/
structure Process.Calm (p q : Process) : Prop where
  pid : q.pid = p.pid
  startedAt : q.startedAt = p.startedAt
  parent : q.parent = p.parent
  phase : q.stage.phase = p.stage.phase
  killed : p.killed = true → q.killed = true

namespace Process.Calm

variable {p q r : Process}

theorem refl (p : Process) : p.Calm p := ⟨rfl, rfl, rfl, rfl, id⟩

theorem trans (h : p.Calm q) (h' : q.Calm r) : p.Calm r where
  pid := h'.pid.trans h.pid
  startedAt := h'.startedAt.trans h.startedAt
  parent := h'.parent.trans h.parent
  phase := h'.phase.trans h.phase
  killed hp := h'.killed (h.killed hp)

end Process.Calm

namespace View

variable {P : Params} {v : View} {i j : Slot} {c : Channel} {now : Nat} {f : Process → Process}

/-- A change of the view that is calm for every slot. -/
def Calm (v w : View) : Prop := w.root = v.root ∧ ∀ j, (v.record j).Calm (w.record j)

theorem Calm.refl (v : View) : v.Calm v := ⟨rfl, fun _ => .refl _⟩

theorem Calm.trans {u w : View} (h : u.Calm v) (h' : v.Calm w) : u.Calm w :=
  ⟨h'.1.trans h.1, fun j => (h.2 j).trans (h'.2 j)⟩

theorem calm_revise (h : (v.record i).Calm (f (v.record i))) : v.Calm (v.revise i f) := by
  refine ⟨rfl, fun j => ?_⟩
  rw [revise_record, Function.update_apply]
  split
  · subst j
    exact h
  · exact .refl _

theorem calm_shift (h : (v.record i).Calm (f (v.record i))) : v.Calm (v.shift i f) :=
  ⟨rfl, (calm_revise h).2⟩

theorem calm_wake : v.Calm (v.wake c) := by
  refine ⟨rfl, fun j => ?_⟩
  unfold wake
  dsimp only
  split
  · have hstage : (v.record j).stage = .sleeping := (Process.sleepsOn_iff.1 ‹_›).1
    exact ⟨rfl, rfl, rfl, by rw [hstage]; rfl, id⟩
  · exact .refl _

theorem calm_wakeParent {p : Process} : v.Calm (v.wakeParent p) := by
  unfold wakeParent
  split
  · exact calm_wake
  · exact .refl v

theorem calm_promote {p : Process} : p.Calm (p.promote P) := by
  obtain ⟨_, _, e⟩ := p.promote_eq (P := P)
  rw [e]
  exact ⟨rfl, rfl, rfl, rfl, id⟩

theorem calm_sweep : v.Calm (v.sweep P) := by
  refine ⟨rfl, fun j => ?_⟩
  unfold sweep
  dsimp only
  split
  · exact calm_promote
  · exact .refl _

theorem calm_sweepIfDue : v.Calm (v.sweepIfDue P now) := by
  unfold sweepIfDue
  split
  · have h := calm_sweep (P := P) (v := v)
    exact ⟨h.1, h.2⟩
  · exact .refl v

theorem calm_kill : v.Calm (v.kill i) := by
  have hkill : v.Calm (v.revise i fun p => { p with killed := true }) :=
    calm_revise ⟨rfl, rfl, rfl, rfl, fun _ => rfl⟩
  unfold kill
  dsimp only
  split
  · refine hkill.trans (calm_shift ⟨rfl, rfl, rfl, ?_, id⟩)
    rw [show ((v.revise i _).record i).stage = .sleeping from ‹_›]
    rfl
  · exact hkill

theorem calm_assign {priority : Nat} : v.Calm (v.assign P i priority) := by
  unfold assign
  dsimp only
  split
  · exact calm_shift ⟨rfl, rfl, rfl, rfl, id⟩
  · exact calm_revise ⟨rfl, rfl, rfl, rfl, id⟩

theorem calm_depart : v.Calm (v.depart i now) := calm_revise ⟨rfl, rfl, rfl, rfl, id⟩

/-- Leaving the CPU for another stage of the living. -/
theorem calm_leave (hrunning : (v.record i).stage = .running)
    (hcalm : ∀ p : Process, p.stage = .running → p.Calm (f p)) : v.Calm (v.leave P i now f) := by
  refine (calm_shift ?_).trans calm_depart
  -- a charge changes level and budget only
  obtain ⟨_, _, e, -⟩ := (v.record i).charge_eq P.budget now
  have hcharge : (v.record i).Calm ((v.record i).charge P.budget now) := by
    rw [e]
    exact ⟨rfl, rfl, rfl, rfl, id⟩
  refine hcharge.trans (hcalm _ ?_)
  rw [e]
  exact hrunning

theorem calm_reclaim {cpu : Cpu} : v.Calm (v.reclaim P cpu i now) := by
  have hmark : v.Calm (v.mark cpu none) := ⟨rfl, fun _ => .refl _⟩
  unfold reclaim
  refine hmark.trans (Calm.trans ?_ calm_sweepIfDue)
  split
  · exact calm_wakeParent
  · exact .refl _

/-! ### Quiet changes -/

/-- A change of the view that leaves the CPUs alone and makes nobody running. -/
def Quiet (v w : View) : Prop :=
  w.marker = v.marker ∧ ∀ j, (w.record j).stage = .running → (v.record j).stage = .running

theorem Quiet.refl (v : View) : v.Quiet v := ⟨rfl, fun _ => id⟩

theorem Quiet.trans {u w : View} (h : u.Quiet v) (h' : v.Quiet w) : u.Quiet w :=
  ⟨h'.1.trans h.1, fun j hj => h.2 j (h'.2 j hj)⟩

theorem Quiet.of_eq {w w' : View} (h : v.Quiet w) (hmarker : w'.marker = w.marker)
    (hrecord : w'.record = w.record) : v.Quiet w' :=
  ⟨hmarker.trans h.1, fun j hj => h.2 j (by rwa [← hrecord])⟩

/-- Running slots stay on CPUs. -/
theorem Quiet.scheduled {w : View} (h : v.Quiet w) (hv : v.Scheduled) : w.Scheduled := by
  intro j hj
  rw [h.1]
  exact hv j (h.2 j hj)

theorem quiet_revise (h : (f (v.record i)).stage = .running → (v.record i).stage = .running) :
    v.Quiet (v.revise i f) := by
  refine ⟨rfl, fun j hj => ?_⟩
  rw [revise_record, Function.update_apply] at hj
  split at hj
  · subst j
    exact h hj
  · exact hj

theorem quiet_shift (h : (f (v.record i)).stage = .running → (v.record i).stage = .running) :
    v.Quiet (v.shift i f) :=
  (quiet_revise h).of_eq rfl rfl

theorem quiet_wake : v.Quiet (v.wake c) := ⟨rfl, fun _ => wake_running_iff.1⟩

theorem quiet_wakeParent {p : Process} : v.Quiet (v.wakeParent p) :=
  ⟨wakeParent_marker, fun _ => wakeParent_running_iff.1⟩

theorem quiet_adopt : v.Quiet (v.adopt P i) := ⟨adopt_marker, fun _ => adopt_running_iff.1⟩

theorem quiet_sweepIfDue : v.Quiet (v.sweepIfDue P now) :=
  ⟨sweepIfDue_marker, fun _ hj => by rwa [sweepIfDue_stage] at hj⟩

theorem quiet_sweep : v.Quiet (v.sweep P) :=
  ⟨rfl, fun _ hj => by rwa [sweep_stage] at hj⟩

theorem quiet_depart : v.Quiet (v.depart i now) := quiet_revise id

theorem quiet_leave (h : ∀ p, (f p).stage ≠ .running) : v.Quiet (v.leave P i now f) := by
  refine Quiet.trans ?_ quiet_depart
  exact quiet_shift fun hs => absurd hs (h _)

theorem quiet_kill : v.Quiet (v.kill i) := by
  have hkill : v.Quiet (v.revise i fun p => { p with killed := true }) := quiet_revise id
  unfold kill
  dsimp only
  split
  · exact hkill.trans (quiet_shift nofun)
  · exact hkill

theorem quiet_assign {priority : Nat} : v.Quiet (v.assign P i priority) := by
  unfold assign
  dsimp only
  split
  · exact quiet_shift id
  · exact quiet_revise id

end View

/-! ### Acts -/

/-- A change that an operation makes at once. -/
inductive Act where
  /-- Take a free slot. -/
  | conceive (i : Slot) (now : Nat)
  /-- Give a slot its kernel stack. -/
  | giveStack (i : Slot) (stack : KernelStack)
  /-- Free an embryo. -/
  | discard (i : Slot)
  /-- Free an embryo that has its stack. -/
  | abandon (i : Slot)
  /-- Start the root process. -/
  | crown (i : Slot) (name : String) (space : AddressSpace)
  /-- Note what a child of the process on a CPU takes over. -/
  | copy (cpu : Cpu) (plan : Blueprint)
  /-- Start a child. -/
  | launch (i : Slot) (plan : Blueprint) (space : AddressSpace) (files : List FileHandle)
    (cwd : Option FileHandle)
  /-- Take the files of the process on a CPU. -/
  | surrender (cpu : Cpu) (i : Slot)
  /-- The process on a CPU exits. -/
  | retire (cpu : Cpu) (i : Slot) (now : Nat)
  /-- The process on a CPU frees an exited child. -/
  | reap (cpu : Cpu) (me i : Slot)
  /-- The process on a CPU goes to sleep until a child can be reaped. -/
  | await (cpu : Cpu) (me : Slot) (now : Nat)
  /-- The process on a CPU goes to sleep. -/
  | park (cpu : Cpu) (i : Slot) (channel : Channel) (now : Nat)
  /-- The process on a CPU is queued again. -/
  | yield (cpu : Cpu) (i : Slot) (now : Nat)
  /-- The process on a CPU, which has left the running stage, switches away. -/
  | depart (cpu : Cpu) (i : Slot) (now : Nat)
  /-- A CPU takes a process. -/
  | dispatch (cpu : Cpu) (handoff : Handoff) (now : Nat)
  /-- A CPU is taken back from its process. -/
  | reclaim (cpu : Cpu) (i : Slot) (now : Nat)
  /-- A promotion sweep. -/
  | sweep
  /-- A promotion sweep if one is due. -/
  | sweepIfDue (now : Nat)
  /-- Wake the sleepers of a channel. -/
  | wake (channel : Channel)
  /-- Wake one process. -/
  | rouse (i : Slot)
  /-- Ask a process to end. -/
  | kill (i : Slot)
  /-- Put a process on a ready level. -/
  | assign (i : Slot) (priority : Nat)
  /-- Set the owner of the process on a CPU. -/
  | setUid (cpu : Cpu) (i : Slot) (uid : Nat)
  /-- Set the group of the process on a CPU. -/
  | setGid (cpu : Cpu) (i : Slot) (gid : Nat)

namespace Act

/-- When an act happens. -/
def Enabled (v : View) : Act → Prop
  | conceive i _ => (v.queue (.stage .unused)).head? = some i ∧ (v.record i).stage = .unused
  | giveStack _ _ | sweep | sweepIfDue _ | wake _ => True
  | discard i | abandon i | launch i _ _ _ _ => (v.record i).stage = .embryo
  | crown i _ _ => v.root = none ∧ (v.record i).stage = .embryo
  | copy cpu plan => v.marker cpu = some plan.parent
  | surrender cpu i => v.marker cpu = some i ∧ v.root ≠ some i
  | retire cpu i _ | park cpu i _ _ | yield cpu i _ =>
    v.marker cpu = some i ∧ (v.record i).stage = .running
  | reap cpu me i => v.marker cpu = some me ∧ v.Reapable me i
  | await cpu me _ => v.marker cpu = some me ∧ (v.record me).stage = .running ∧
      (∃ i, v.ChildOf me i) ∧ (v.record me).killed = false ∧ ∀ i, ¬ v.Reapable me i
  | depart cpu i _ => v.marker cpu = some i ∧ (v.record i).stage ≠ .running
  | dispatch cpu ⟨i, pid⟩ _ => v.marker cpu = none ∧ (v.record i).stage = .runnable ∧
      ¬ v.Marked i ∧ pid = (v.record i).pid
  | reclaim cpu i _ => v.marker cpu = some i
  | rouse i => (v.record i).stage = .sleeping
  | kill i => (v.record i).stage ≠ .unused
  | assign i _ => (v.record i).stage.isActive = true
  | setUid cpu i _ | setGid cpu i _ => v.marker cpu = some i

/-- What an act does. -/
def apply (P : Params) (v : View) : Act → View
  | conceive i now => v.conceive P i now
  | giveStack i stack => v.revise i fun p => { p with stack := some stack }
  | discard i => v.discard i
  | abandon i => v.abandon i
  | crown i name space => v.crown i name space
  | copy _ _ => v
  | launch i plan space files cwd => v.launch i plan space files cwd
  | surrender _ i => v.surrender i
  | retire _ i now => v.retire P i now
  | reap _ _ i => v.reap i
  | await _ me now =>
    v.leave P me now fun p =>
      { p with channel := some (.process (v.record me).pid), stage := .sleeping }
  | park _ i channel now =>
    v.leave P i now fun p => { p with channel := some channel, stage := .sleeping }
  | yield _ i now => v.leave P i now fun p => { p with stage := .runnable }
  | depart _ i now => v.depart i now
  | dispatch cpu handoff now => v.dispatch handoff.slot cpu now
  | reclaim cpu i now => v.reclaim P cpu i now
  | sweep => v.sweep P
  | sweepIfDue now => v.sweepIfDue P now
  | wake channel => v.wake channel
  | rouse i => v.shift i Process.awaken
  | kill i => v.kill i
  | assign i priority => v.assign P i priority
  | setUid _ i uid => v.revise i fun p => { p with uid }
  | setGid _ i gid => v.revise i fun p => { p with gid }

/-- Whether an act is none of the steps in the life of a process. -/
def isCalm : Act → Bool
  | conceive _ _ | discard _ | abandon _ | crown _ _ _ | launch _ _ _ _ _ | retire _ _ _
  | reap _ _ _ => false
  | _ => true

/-- Whether an act leaves the CPUs alone. -/
def isQuiet : Act → Bool
  | dispatch _ _ _ | reclaim _ _ _ => false
  | _ => true

variable {P : Params} {v : View} {a : Act}

theorem calm_apply (h : a.Enabled v) (hcalm : a.isCalm = true) : v.Calm (a.apply P v) := by
  cases a with
  | giveStack | surrender | setUid | setGid => exact View.calm_revise ⟨rfl, rfl, rfl, rfl, id⟩
  | copy => exact .refl v
  | await =>
    rw [apply]
    exact View.calm_leave h.2.1 fun p hp => ⟨rfl, rfl, rfl, by rw [hp]; rfl, id⟩
  | park | yield =>
    rw [apply]
    exact View.calm_leave h.2 fun p hp => ⟨rfl, rfl, rfl, by rw [hp]; rfl, id⟩
  | depart => exact View.calm_depart
  | dispatch cpu handoff now =>
    -- that a CPU is marked concerns no record
    refine ⟨rfl, (View.calm_shift (v := v) (i := handoff.slot) (f := Process.dispatch now)
      ⟨rfl, rfl, rfl, ?_, id⟩).2⟩
    rw [h.2.1]
    rfl
  | reclaim => exact View.calm_reclaim
  | sweep => exact View.calm_sweep
  | sweepIfDue => exact View.calm_sweepIfDue
  | wake => exact View.calm_wake
  | rouse i =>
    have hstage : (v.record i).stage = .sleeping := h
    exact View.calm_shift ⟨rfl, rfl, rfl, by rw [hstage]; rfl, id⟩
  | kill => exact View.calm_kill
  | assign => exact View.calm_assign
  | conceive | discard | abandon | crown | launch | retire | reap => cases hcalm

theorem quiet_apply (h : a.Enabled v) (hquiet : a.isQuiet = true) : v.Quiet (a.apply P v) := by
  cases a with
  | conceive => exact (View.quiet_shift (f := Process.conceive P _ _) nofun).of_eq rfl rfl
  | giveStack | surrender | setUid | setGid => exact View.quiet_revise id
  | discard | launch | reap => exact (View.quiet_revise id).trans (View.quiet_shift nofun)
  | abandon =>
    exact (View.quiet_revise id).trans ((View.quiet_revise id).trans (View.quiet_shift nofun))
  | crown i name space =>
    exact ((View.quiet_revise (f := Process.crown name space) Process.crown_stage.symm.trans).trans
      (View.quiet_shift (f := Process.enter .runnable) nofun)).of_eq rfl rfl
  | copy => exact .refl v
  | retire =>
    exact View.quiet_wakeParent.trans (View.quiet_adopt.trans
      ((View.quiet_shift (f := Process.enter .zombie) nofun).trans
        ((View.quiet_revise id).trans View.quiet_depart)))
  | await | park | yield =>
    rw [apply]
    exact View.quiet_leave fun _ => by simp
  | depart => exact View.quiet_depart
  | sweep => exact View.quiet_sweep
  | sweepIfDue => exact View.quiet_sweepIfDue
  | wake => exact View.quiet_wake
  | rouse => exact View.quiet_shift nofun
  | kill => exact View.quiet_kill
  | assign => exact View.quiet_assign
  | dispatch | reclaim => cases hquiet

/-- Running slots stay on CPUs, unless a CPU is taken back from one of them. -/
theorem scheduled_apply (h : a.Enabled v) (hv : v.Scheduled)
    (hleft : ∀ cpu i now, a = reclaim cpu i now → (v.record i).stage ≠ .running) :
    (a.apply P v).Scheduled := by
  by_cases hquiet : a.isQuiet = true
  · exact (quiet_apply h hquiet).scheduled hv
  cases a with
  | dispatch cpu handoff now => exact View.scheduled_dispatch hv h.1
  | reclaim cpu i now => exact View.scheduled_reclaim hv h (hleft cpu i now rfl)
  | _ => exact absurd rfl hquiet

end Act

/-- A list of acts, each enabled when its turn comes, leads from one view to another. -/
def View.Follows (P : Params) (v : View) : (acts : List Act) → (w : View) → Prop
  | [], w => w = v
  | a :: acts, w => a.Enabled v ∧ (a.apply P v).Follows P acts w

/-- One act in turn is that act. -/
theorem View.Follows.eq_apply {P : Params} {v w : View} {a : Act} (h : v.Follows P [a] w) :
    w = a.apply P v :=
  h.2

/-- What every act of a list preserves. -/
theorem View.Follows.preserves {P : Params} {v w : View} {acts : List Act} {I : View → Prop}
    (h : v.Follows P acts w) (hv : I v)
    (step : ∀ v, ∀ a ∈ acts, a.Enabled v → I v → I (a.apply P v)) : I w := by
  induction acts generalizing v with
  | nil => exact h ▸ hv
  | cons a acts ih =>
    exact ih h.2 (step v a List.mem_cons_self h.1 hv)
      fun u b hb => step u b (List.mem_cons_of_mem a hb)

/-- A list of quiet acts is quiet. -/
theorem View.Follows.quiet {P : Params} {v w : View} {acts : List Act} (h : v.Follows P acts w)
    (hacts : ∀ a ∈ acts, a.isQuiet = true) : v.Quiet w :=
  h.preserves (I := v.Quiet) (.refl v) fun _ a ha he hu =>
    hu.trans (Act.quiet_apply he (hacts a ha))

end FeedbackQueue
