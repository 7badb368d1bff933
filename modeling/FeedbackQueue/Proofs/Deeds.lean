import FeedbackQueue.Proofs.Courses

/-!
# Deeds

Who is named by which pid, who is on which CPU and on which level, and since when: an event changes
this at most once, in its *deed*.  Whatever else it does is *steady*.  The deed of an event can be
read off the request or the answer and its result, with the reading of the clock that goes into it;
so what is proved of deeds can be said of the events of a run.

## Main definitions

* `Deed`, `Act.deed?` : the acts that change identity, CPU, level or accounts.
* `Event.deed?` : the deed of an event with a result.
* `View.Steady` : a change without a deed.
* `Machine.Does` : what an event does.

## Main statements

* `Event.deeds_of_script` : an event does its deed and no other.
* `Machine.does_of_perform_eq_ok` : before and after its deed an event is steady.
-/

namespace FeedbackQueue

/-- What an event does to identities, CPUs, levels and accounts. -/
inductive Deed where
  /-- A slot is taken and gets a pid. -/
  | allocate (i : Slot) (now : Nat)
  /-- The slot of an embryo is freed. -/
  | discard (i : Slot)
  /-- The root process starts. -/
  | crown (i : Slot)
  /-- A child of the process in a slot starts. -/
  | launch (i parent : Slot)
  /-- The process on a CPU exits. -/
  | exit (cpu : Cpu) (now : Nat)
  /-- The process on a CPU reaps a child. -/
  | reap (cpu : Cpu)
  /-- The process on a CPU yields or goes to sleep. -/
  | leave (cpu : Cpu) (now : Nat)
  /-- The process on a CPU, which has left the running stage, switches away. -/
  | depart (cpu : Cpu) (now : Nat)
  /-- A CPU takes a process. -/
  | dispatch (cpu : Cpu) (handoff : Handoff) (now : Nat)
  /-- A CPU is taken back, and a promotion sweep is made if one is due. -/
  | reclaim (cpu : Cpu) (i : Slot) (now : Nat)
  /-- A promotion sweep is made if one is due. -/
  | sweepIfDue (now : Nat)
  /-- A promotion sweep. -/
  | sweep
  /-- A process is put on a level. -/
  | assign (priority : Nat)
  deriving DecidableEq

/-- The deed that an act is. -/
def Act.deed? : Act → Option Deed
  | conceive i now => some (.allocate i now)
  | discard i | abandon i => some (.discard i)
  | crown i _ _ => some (.crown i)
  | launch i plan _ _ _ => some (.launch i plan.parent)
  | retire cpu _ now => some (.exit cpu now)
  | reap cpu _ _ => some (.reap cpu)
  | await cpu _ now | park cpu _ _ now | yield cpu _ now => some (.leave cpu now)
  | depart cpu _ now => some (.depart cpu now)
  | dispatch cpu handoff now => some (.dispatch cpu handoff now)
  | reclaim cpu i now => some (.reclaim cpu i now)
  | sweepIfDue now => some (.sweepIfDue now)
  | sweep => some .sweep
  | assign _ priority => some (.assign priority)
  | giveStack _ _ | copy _ _ | surrender _ _ | wake _ | rouse _ | kill _ | setUid _ _ _
  | setGid _ _ _ => none

/-! ### Deeds of events -/

namespace Progress

/-- The deed of a round of a wait. -/
def waits (cpu : Cpu) (now : Nat) : Progress → Option Deed
  | waiting (.switching _ _) => some (.leave cpu now)
  | waiting (.freeingStack _ _ _ _) | waiting (.freeingSpace _ _ _)
  | returned (.waited (.ok _) _) => some (.reap cpu)
  | _ => none

/-- The deed of a poll. -/
def polls (cpu : Cpu) : Progress → Option Deed
  | waiting (.freeingStack _ _ _ _) | waiting (.freeingSpace _ _ _)
  | returned (.polled (.ok (some _))) => some (.reap cpu)
  | _ => none

/-- The deed of a round of a timed sleep. -/
def sleeps (cpu : Cpu) (now : Nat) : Progress → Option Deed
  | waiting _ => some (.leave cpu now)
  | _ => none

/-- The deed of an exit that may have files to close. -/
def exits (cpu : Cpu) (now : Nat) : Progress → Option Deed
  | waiting (.switching _ _) => some (.exit cpu now)
  | _ => none

/-- The deed of a request to dispatch. -/
def dispatches (cpu : Cpu) (now : Nat) : Progress → Option Deed
  | returned (.dispatched (some handoff)) => some (.dispatch cpu handoff now)
  | _ => none

/-- The deed of a round of a CPU. -/
def rounds (cpu : Cpu) (now : Nat) : Progress → Option Deed
  | waiting (.running _ handoff _) => some (.dispatch cpu handoff now)
  | _ => some (.sweepIfDue now)

/-- The deed of a request to put a process on a level. -/
def assigns (priority : Nat) : Progress → Option Deed
  | returned (.answered (.ok ())) => some (.assign priority)
  | _ => none

/-- The deed of an allocation. -/
def allocates (now : Nat) : Progress → Option Deed
  | waiting (.allocating i _) => some (.allocate i now)
  | _ => none

/-- The deed of a fork that goes on. -/
def launches (i : Slot) (plan : Blueprint) : Progress → Option Deed
  | returned (.created (.ok _)) => some (.launch i plan.parent)
  | _ => none

end Progress

/-- The deed of a request with a result. -/
def Request.deed? (now : Nat) : Request → Progress → Option Deed
  | .allocate, p | .boot _ _, p | .fork _, p => p.allocates now
  | .exit cpu, p | .terminate cpu, p => p.exits cpu now
  | .wait cpu, p => p.waits cpu now
  | .poll cpu, p => p.polls cpu
  | .sleep cpu _, _ | .yield cpu, _ => some (.leave cpu now)
  | .sleepFor cpu _, p => p.sleeps cpu now
  | .switch cpu left, _ => some (.depart cpu left)
  | .dispatch cpu, p => p.dispatches cpu now
  | .reclaim cpu handoff, _ => some (.reclaim cpu handoff.slot now)
  | .setPriority _ priority, p => p.assigns priority
  | .sweep, _ => some .sweep
  | .sweepIfDue due, _ => some (.sweepIfDue due)
  | _, _ => none

/-- The deed of an answer with a result. -/
def Suspension.deed? (now : Nat) : (s : Suspension) → s.call.Answer → Progress → Option Deed
  | .allocating i _, none, _ | .copying i _ _, none, _ => some (.discard i)
  | .allocating i (.child plan), some _, _ => if plan.space.isNone then some (.discard i) else none
  | .mapping i _ _, some _, _ => some (.crown i)
  | .copying i plan _, some _, p => p.launches i plan
  | .duplicating i plan _ _ _ _, _, p | .duplicatingCwd i plan _ _ _, _, p => p.launches i plan
  | .closing cpu _ _ _, _, p => p.exits cpu now
  | .switching _ .wait, cpu, p => p.waits cpu now
  | .switching _ (.sleepFor _ _), cpu, p => p.sleeps cpu now
  | .enabling cpu _, _, p => p.rounds cpu now
  | .running cpu _ _, handoff, _ => some (.reclaim cpu handoff.slot now)
  | _, _, _ => none

/-- The reading of the clock that a deed is made at, unless the request names one. -/
def Deed.reading? : Deed → Option Nat
  | allocate _ now | exit _ now | leave _ now | dispatch _ _ now | reclaim _ _ now => some now
  | _ => none

/-- The reading of the clock that an event is made at. -/
def Event.now (e : Event) : Nat := e.clock.now

section Readings

variable {now reading : Nat} {cpu : Cpu} {p : Progress} {d : Deed}

theorem Progress.reading_of_waits (h : p.waits cpu now = some d) (hd : d.reading? = some reading) :
    reading = now := by
  unfold waits at h
  split at h
  · cases h
    exact (Option.some.inj hd).symm
  all_goals cases h <;> cases hd

theorem Progress.reading_of_polls (h : p.polls cpu = some d) : d.reading? = none := by
  unfold polls at h
  split at h <;> cases h <;> rfl

theorem Progress.reading_of_sleeps (h : p.sleeps cpu now = some d)
    (hd : d.reading? = some reading) : reading = now := by
  unfold sleeps at h
  split at h
  · cases h
    exact (Option.some.inj hd).symm
  · cases h

theorem Progress.reading_of_exits (h : p.exits cpu now = some d) (hd : d.reading? = some reading) :
    reading = now := by
  unfold exits at h
  split at h
  · cases h
    exact (Option.some.inj hd).symm
  · cases h

theorem Progress.reading_of_allocates (h : p.allocates now = some d)
    (hd : d.reading? = some reading) : reading = now := by
  unfold allocates at h
  split at h
  · cases h
    exact (Option.some.inj hd).symm
  · cases h

theorem Progress.reading_of_launches {i : Slot} {plan : Blueprint}
    (h : p.launches i plan = some d) : d.reading? = none := by
  unfold launches at h
  split at h <;> cases h
  rfl

theorem Progress.reading_of_dispatches (h : p.dispatches cpu now = some d)
    (hd : d.reading? = some reading) : reading = now := by
  unfold dispatches at h
  split at h
  · cases h
    exact (Option.some.inj hd).symm
  · cases h

theorem Progress.reading_of_rounds (h : p.rounds cpu now = some d)
    (hd : d.reading? = some reading) : reading = now := by
  unfold rounds at h
  split at h
  · cases h
    exact (Option.some.inj hd).symm
  · cases h
    cases hd

theorem Progress.reading_of_assigns {priority : Nat} (h : p.assigns priority = some d) :
    d.reading? = none := by
  unfold assigns at h
  split at h <;> cases h
  rfl

theorem Request.reading_of_deed {request : Request} (h : request.deed? now p = some d)
    (hd : d.reading? = some reading) : reading = now := by
  cases request with
  | allocate | boot | fork => exact Progress.reading_of_allocates h hd
  | exit | terminate => exact Progress.reading_of_exits h hd
  | wait => exact Progress.reading_of_waits h hd
  | poll => exact nomatch (Progress.reading_of_polls h).symm.trans hd
  | sleepFor => exact Progress.reading_of_sleeps h hd
  | dispatch => exact Progress.reading_of_dispatches h hd
  | setPriority => exact nomatch (Progress.reading_of_assigns h).symm.trans hd
  | sleep | yield | reclaim =>
    cases h
    exact (Option.some.inj hd).symm
  | switch | sweep | sweepIfDue =>
    cases h
    cases hd
  | pass | serve | signal | tick | rouse | kill | setUid | setGid => cases h

theorem Suspension.reading_of_deed {s : Suspension} {reply : s.call.Answer}
    (h : s.deed? now reply p = some d) (hd : d.reading? = some reading) : reading = now := by
  cases s with
  | allocating i purpose =>
    cases reply with
    | none =>
      cases h
      cases hd
    | some stack =>
      cases purpose with
      | bare | root => cases h
      | child plan =>
        obtain ⟨-, h⟩ := Option.ite_none_right_eq_some.1 h
        cases h
        cases hd
  | mapping =>
    cases reply with
    | none => cases h
    | some space =>
      cases h
      cases hd
  | copying =>
    cases reply with
    | none =>
      cases h
      cases hd
    | some space => exact nomatch (Progress.reading_of_launches h).symm.trans hd
  | duplicating | duplicatingCwd => exact nomatch (Progress.reading_of_launches h).symm.trans hd
  | closing => exact Progress.reading_of_exits h hd
  | switching cpu resumption =>
    cases resumption with
    | wait => exact Progress.reading_of_waits h hd
    | sleepFor => exact Progress.reading_of_sleeps h hd
    | exit | terminate | proceed => cases h
  | enabling => exact Progress.reading_of_rounds h hd
  | running =>
    cases h
    exact (Option.some.inj hd).symm
  | undoing | freeingStack | freeingSpace | idling => cases h

end Readings

namespace Event

/-- The deed of an event with a result. -/
def deed? : Event → Progress → Option Deed
  | start request clock, p => request.deed? clock.now p
  | answer task reply clock, p => task.suspension.deed? clock.now reply p

/-- A deed is done at the reading of the clock of its event. -/
theorem reading_of_deed {e : Event} {p : Progress} {d : Deed} {reading : Nat}
    (h : e.deed? p = some d) (hd : d.reading? = some reading) : reading = e.now := by
  cases e with
  | start => exact Request.reading_of_deed h hd
  | answer => exact Suspension.reading_of_deed h hd

variable {acts : List Act} {p : Progress} {now : Nat} {clock : Clock} {cpu : Cpu} {i : Slot}
  {plan : Blueprint}

/-- The deeds of acts. -/
def deeds (acts : List Act) : List Deed := acts.filterMap Act.deed?

theorem deeds_allocateFor {purpose : Purpose} (h : Script.allocateFor purpose now acts p) :
    deeds acts = (p.allocates now).toList := by
  rcases h with ⟨rfl, rfl⟩ | ⟨i, rfl, rfl⟩
  · rfl
  · rfl

theorem deeds_abandonFork (h : Script.abandonFork i acts p) : deeds acts = [.discard i] := by
  rcases h with ⟨stack, rfl, rfl⟩ | ⟨rfl, rfl⟩
  · rfl
  · rfl

theorem deeds_finishFork {space : AddressSpace} {files : List FileHandle} {cwd : Option FileHandle}
    (h : Script.finishFork i plan space files cwd acts p) :
    deeds acts = (p.launches i plan).toList := by
  obtain ⟨pid, rfl, rfl⟩ := h
  rfl

theorem deeds_duplicateFiles {space : AddressSpace} {copies files : List FileHandle}
    (h : Script.duplicateFiles i plan space copies files acts p) :
    deeds acts = (p.launches i plan).toList := by
  rcases Script.cases_duplicateFiles h with ⟨file, rest, rfl, rfl⟩ | ⟨dir, rfl, rfl⟩ | h
  · rfl
  · rfl
  · exact deeds_finishFork h

theorem deeds_closeFiles {last : Resumption} {files : List FileHandle}
    (h : Script.closeFiles cpu last now files acts p) : deeds acts = (p.exits cpu now).toList := by
  cases files with
  | cons file rest =>
    obtain ⟨rfl, rfl⟩ := h
    rfl
  | nil =>
    obtain ⟨i, rfl, rfl⟩ := h
    rfl

theorem deeds_exit {last : Resumption} (h : Script.exit cpu last now acts p) :
    deeds acts = (p.exits cpu now).toList := by
  obtain ⟨i, files, rest, rfl, h⟩ := h
  exact (List.filterMap_cons_none rfl).trans (deeds_closeFiles h)

theorem deeds_waitRound (h : Script.waitRound cpu now acts p) :
    deeds acts = (p.waits cpu now).toList := by
  rcases h with ⟨rfl, rfl⟩ | ⟨me, i, remains, rest, rfl, h⟩ | ⟨me, rfl, rfl⟩
  · rfl
  · rcases Script.cases_release h with ⟨_, _, rfl, rfl⟩ | ⟨_, rfl, rfl⟩ | ⟨rfl, rfl⟩ <;> rfl
  · rfl

theorem deeds_poll (h : Script.poll cpu acts p) : deeds acts = (p.polls cpu).toList := by
  rcases h with ⟨result, hresult, rfl, rfl⟩ | ⟨me, i, remains, rest, rfl, h⟩
  · rcases result with why | _ | pid
    · rfl
    · rfl
    · exact absurd rfl (hresult pid)
  · rcases Script.cases_release h with ⟨_, _, rfl, rfl⟩ | ⟨_, rfl, rfl⟩ | ⟨rfl, rfl⟩ <;> rfl

theorem deeds_sleepRound {first ticks : Nat} (h : Script.sleepRound cpu first ticks now acts p) :
    deeds acts = (p.sleeps cpu now).toList := by
  rcases h with ⟨result, rfl, rfl⟩ | ⟨i, rfl, rfl⟩
  · rfl
  · rfl

/-- A request does its deed and no other. -/
theorem deeds_of_start {request : Request} (h : Script.start clock request acts p) :
    deeds acts = (request.deed? clock.now p).toList := by
  cases request with
  | allocate | boot => exact deeds_allocateFor h
  | fork cpu =>
    obtain ⟨plan, rest, rfl, h⟩ := h
    exact (List.filterMap_cons_none rfl).trans (deeds_allocateFor h)
  | exit | terminate => exact deeds_exit h
  | wait => exact deeds_waitRound h
  | poll => exact deeds_poll h
  | sleepFor => exact deeds_sleepRound h
  | sleep | yield | switch | signal =>
    obtain ⟨_, rfl, rfl⟩ := h
    rfl
  | dispatch =>
    rcases h with ⟨rfl, rfl⟩ | ⟨handoff, rfl, rfl⟩
    · rfl
    · rfl
  | kill | setPriority | setUid | setGid =>
    rcases h with ⟨why, rfl, rfl⟩ | ⟨i, rfl, rfl⟩
    · rfl
    · rfl
  | pass | serve | reclaim | tick | rouse | sweep | sweepIfDue =>
    obtain ⟨rfl, rfl⟩ := h
    rfl

/-- What an allocation that got its stack goes on with. -/
theorem deeds_furnish {purpose : Purpose} {stack : KernelStack}
    (h : Script.furnish i purpose acts p) :
    deeds acts = ((Suspension.allocating i purpose).deed? now (some stack) p).toList := by
  cases purpose with
  | bare | root =>
    obtain ⟨rfl, rfl⟩ := h
    rfl
  | child plan =>
    rcases Script.cases_furnish_child h with ⟨source, hspace, rfl, rfl⟩ | ⟨hspace, h⟩
    · simp [Suspension.deed?, hspace, deeds]
    · rw [deeds_abandonFork h]
      simp [Suspension.deed?, hspace]

/-- An answer does its deed and no other. -/
theorem deeds_of_resume {s : Suspension} {reply : s.call.Answer}
    (h : Script.resume clock s reply acts p) : deeds acts = (s.deed? clock.now reply p).toList := by
  cases s with
  | allocating i purpose =>
    cases reply with
    | some stack =>
      obtain ⟨rest, rfl, h⟩ := h
      exact (List.filterMap_cons_none rfl).trans (deeds_furnish h)
    | none =>
      obtain ⟨rfl, rfl⟩ := h
      rfl
  | mapping i name image =>
    cases reply with
    | some space =>
      obtain ⟨pid, rfl, rfl⟩ := h
      rfl
    | none => exact h.elim
  | copying i plan source =>
    cases reply with
    | some space => exact deeds_duplicateFiles h
    | none => exact deeds_abandonFork h
  | duplicating => exact deeds_duplicateFiles h
  | duplicatingCwd => exact deeds_finishFork h
  | closing => exact deeds_closeFiles h
  | switching cpu resumption =>
    cases resumption with
    | exit | proceed =>
      obtain ⟨rfl, rfl⟩ := h
      rfl
    | terminate => exact h.elim
    | wait => exact deeds_waitRound h
    | sleepFor => exact deeds_sleepRound h
  | freeingStack reaper pid stack space =>
    rw [(course_releaseSpace h).1]
    rfl
  | enabling cpu forever =>
    rcases h with ⟨handoff, rfl, rfl⟩ | ⟨rfl, rfl⟩
    · rfl
    · cases forever <;> rfl
  | undoing | freeingSpace | running | idling =>
    obtain ⟨rfl, rfl⟩ := h
    rfl

/-- **An event does its deed and no other.** -/
theorem deeds_of_script {e : Event} (h : e.script acts p) :
    deeds acts = (e.deed? p).toList := by
  cases e with
  | start => exact deeds_of_start h
  | answer => exact deeds_of_resume h

end Event

/-! ### Between deeds -/

/-- A change of a record that leaves identity, parent, level and accounts alone, and neither starts
nor ends a stint. -/
structure Process.Steady (p q : Process) : Prop where
  pid : q.pid = p.pid
  phase : q.stage.phase = p.stage.phase
  running : q.stage = .running ↔ p.stage = .running
  parent : q.parent = p.parent
  priority : q.priority = p.priority
  budget : q.budget = p.budget
  startedAt : q.startedAt = p.startedAt
  cpuTicks : q.cpuTicks = p.cpuTicks
  dispatchedAt : q.dispatchedAt = p.dispatchedAt

namespace Process.Steady

variable {p q r : Process}

theorem refl (p : Process) : p.Steady p := ⟨rfl, rfl, .rfl, rfl, rfl, rfl, rfl, rfl, rfl⟩

theorem trans (h : p.Steady q) (h' : q.Steady r) : p.Steady r where
  pid := h'.pid.trans h.pid
  phase := h'.phase.trans h.phase
  running := h'.running.trans h.running
  parent := h'.parent.trans h.parent
  priority := h'.priority.trans h.priority
  budget := h'.budget.trans h.budget
  startedAt := h'.startedAt.trans h.startedAt
  cpuTicks := h'.cpuTicks.trans h.cpuTicks
  dispatchedAt := h'.dispatchedAt.trans h.dispatchedAt

theorem awaken (h : p.stage = .sleeping) : p.Steady p.awaken where
  pid := rfl
  phase := by
    rw [h]
    rfl
  running := by simp [Process.awaken, h]
  parent := rfl
  priority := rfl
  budget := rfl
  startedAt := rfl
  cpuTicks := rfl
  dispatchedAt := rfl

end Process.Steady

namespace View

variable {P : Params} {u v w : View} {i : Slot} {f : Process → Process} {acts : List Act}

/-- A change without a deed. -/
structure Steady (v w : View) : Prop where
  record : ∀ i, (v.record i).Steady (w.record i)
  marker : w.marker = v.marker
  nextPid : w.nextPid = v.nextPid
  sweepAt : w.sweepAt = v.sweepAt
  root : w.root = v.root

theorem Steady.refl (v : View) : v.Steady v := ⟨fun _ => .refl _, rfl, rfl, rfl, rfl⟩

theorem Steady.trans (h : u.Steady v) (h' : v.Steady w) : u.Steady w where
  record i := (h.record i).trans (h'.record i)
  marker := h'.marker.trans h.marker
  nextPid := h'.nextPid.trans h.nextPid
  sweepAt := h'.sweepAt.trans h.sweepAt
  root := h'.root.trans h.root

theorem steady_revise (h : (v.record i).Steady (f (v.record i))) : v.Steady (v.revise i f) := by
  refine ⟨fun j => ?_, rfl, rfl, rfl, rfl⟩
  rw [revise_record, Function.update_apply]
  split
  · subst j
    exact h
  · exact .refl _

theorem steady_shift (h : (v.record i).Steady (f (v.record i))) : v.Steady (v.shift i f) :=
  ⟨(steady_revise h).record, rfl, rfl, rfl, rfl⟩

theorem steady_wake {c : Channel} : v.Steady (v.wake c) := by
  refine ⟨fun j => ?_, rfl, rfl, rfl, rfl⟩
  unfold wake
  dsimp only
  split
  · exact .awaken (Process.sleepsOn_iff.1 ‹_›).1
  · exact .refl _

theorem steady_wakeParent {p : Process} : v.Steady (v.wakeParent p) := by
  unfold wakeParent
  split
  · exact steady_wake
  · exact .refl v

theorem steady_kill : v.Steady (v.kill i) := by
  have hkill : v.Steady (v.revise i fun p => { p with killed := true }) :=
    steady_revise ⟨rfl, rfl, .rfl, rfl, rfl, rfl, rfl, rfl, rfl⟩
  unfold kill
  dsimp only
  split
  · exact hkill.trans (steady_shift (.awaken ‹_›))
  · exact hkill

end View

/-- Acts without a deed are steady. -/
theorem Act.steady_apply {P : Params} {v : View} {a : Act} (h : a.Enabled v)
    (ha : a.deed? = none) : v.Steady (a.apply P v) := by
  cases a with
  | giveStack | surrender | setUid | setGid =>
    rw [apply]
    exact View.steady_revise ⟨rfl, rfl, .rfl, rfl, rfl, rfl, rfl, rfl, rfl⟩
  | copy => exact .refl v
  | wake => exact View.steady_wake
  | rouse => exact View.steady_shift (.awaken h)
  | kill => exact View.steady_kill
  | _ => cases ha

namespace View

variable {P : Params} {v w : View} {acts : List Act}

/-- Acts without a deed are steady in turn. -/
theorem Follows.steady (h : v.Follows P acts w) (hacts : Event.deeds acts = []) : v.Steady w := by
  refine h.preserves (I := v.Steady) (.refl v) fun u a ha he hu => hu.trans (Act.steady_apply he ?_)
  exact List.filterMap_eq_nil_iff.1 hacts a ha

/-- Acts with one deed are steady before and after it. -/
theorem Follows.exists_deed {d : Deed} (h : v.Follows P acts w) (hacts : Event.deeds acts = [d]) :
    ∃ u, ∃ a ∈ acts, a.deed? = some d ∧ v.Steady u ∧ a.Enabled u ∧ (a.apply P u).Steady w := by
  induction acts generalizing v with
  | nil => cases hacts
  | cons a acts ih =>
    cases ha : a.deed? with
    | none =>
      obtain ⟨u, b, hb, hd, hu, he, hw⟩ := ih h.2 ((List.filterMap_cons_none ha).symm.trans hacts)
      exact ⟨u, b, List.mem_cons_of_mem a hb, hd, (Act.steady_apply h.1 ha).trans hu, he, hw⟩
    | some d' =>
      obtain ⟨rfl, hrest⟩ := List.cons.inj ((List.filterMap_cons_some ha).symm.trans hacts)
      exact ⟨v, a, List.mem_cons_self, ha, .refl v, h.1, h.2.steady hrest⟩

end View

namespace Machine

variable {P : Params} {m m₁ : Machine P} {e : Event} {p : Progress}

/-- What an event does. -/
inductive Does (m : Machine P) (e : Event) (p : Progress) (m₁ : Machine P) : Prop
  /-- Nothing but steady changes. -/
  | steady (hdeed : e.deed? p = none) (hsteady : m.table.view.Steady m₁.table.view)
  /-- Its deed, which is one of its acts, between steady changes. -/
  | deed {d : Deed} {u : View} {a : Act} (hdeed : e.deed? p = some d) (ha : a.deed? = some d)
      (howns : e.Owns a) (hu : m.table.view.Steady u) (he : a.Enabled u)
      (hw : (a.apply P u).Steady m₁.table.view)

/-- **Before and after its deed an event is steady.** -/
theorem does_of_perform_eq_ok (h : m.table.Orderly) (hperform : m.perform e = .ok (p, m₁)) :
    m.Does e p m₁ := by
  obtain ⟨-, -, acts, hfollows, hscript⟩ := of_perform_eq_ok h hperform
  have hdeeds := Event.deeds_of_script hscript
  cases hdeed : e.deed? p with
  | none =>
    rw [hdeed] at hdeeds
    exact .steady hdeed (hfollows.steady hdeeds)
  | some d =>
    rw [hdeed] at hdeeds
    obtain ⟨u, a, hmem, ha, hu, he, hw⟩ := hfollows.exists_deed hdeeds
    exact .deed hdeed ha (Event.owns_of_script hscript a hmem) hu he hw

end Machine

end FeedbackQueue
