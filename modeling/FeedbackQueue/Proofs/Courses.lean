import FeedbackQueue.Proofs.Runs

/-!
# Courses of events

For what happens to processes and CPUs most of a script does not matter.  The *course* of an event
sums it up: who acts, for which blueprint, and whether the event gives out or gives back a handoff.
All that is proved of runs goes by cases on the course of an event.

## Main definitions

* `Event.cpu?`, `Event.exits?` : the CPU whose process acts, or is asked to exit.
* `Event.plan?` : the blueprint that an event goes by.
* `Progress.Plain`, `Event.Private` : nothing is left to be done; no handoff changes hands.
* `Event.Course` : the courses.
* `Suspension.slot?`, `Event.Owns` : the embryo of a request, and who may do what to a slot.

## Main statements

* `Event.course_of_script` : every script takes one of the courses.
* `Event.owns_of_script` : the acts of a script are those that its event may make.
-/

namespace FeedbackQueue

/-- The blueprint of a child that is still to be started. -/
def Suspension.plan? : Suspension → Option Blueprint
  | .allocating _ (.child plan) | .copying _ plan _ | .duplicating _ plan _ _ _ _
  | .duplicatingCwd _ plan _ _ _ => some plan
  | _ => none

/-- The CPU of a process that closes its files. -/
def Suspension.closes? : Suspension → Option Cpu
  | .closing cpu _ _ _ => some cpu
  | _ => none

/-- The embryo that is still to be furnished and started. -/
def Suspension.slot? : Suspension → Option Slot
  | .allocating i _ | .mapping i _ _ | .copying i _ _ | .duplicating i _ _ _ _ _
  | .duplicatingCwd i _ _ _ _ => some i
  | _ => none

/-- Whose request still has a child to start has not switched away. -/
theorem Suspension.isSwitched_of_plan {s : Suspension} {plan : Blueprint}
    (h : s.plan? = some plan) : s.isSwitched = false := by
  cases s <;> first | rfl | cases h

theorem Suspension.isSwitched_of_closes {s : Suspension} {cpu : Cpu} (h : s.closes? = some cpu) :
    s.isSwitched = false := by
  cases s <;> first | rfl | cases h

namespace Progress

/-- The blueprint that the rest of a request goes by. -/
def plan? : Progress → Option Blueprint
  | waiting s => s.plan?
  | returned _ => none

/-- The CPU of a process that closes its files. -/
def closes? : Progress → Option Cpu
  | waiting s => s.closes?
  | returned _ => none

/-- Whether the process of a request has switched away. -/
def isSwitched : Progress → Bool
  | waiting s => s.isSwitched
  | returned _ => false

/-- Whether a request has given out a handoff. -/
def isHandoff : Progress → Bool
  | returned (.dispatched (some _)) | waiting (.running _ _ _) => true
  | _ => false

/-- A request has neither a child to start nor files to close. -/
def Plain (p : Progress) : Prop := p.plan? = none ∧ p.closes? = none

end Progress

namespace Act

/-- Whether an act concerns neither the process on a CPU nor the start of a child. -/
def isNeutral : Act → Bool
  | conceive _ _ | giveStack _ _ | discard _ | abandon _ | crown _ _ _ | depart _ _ _ | sweep
  | sweepIfDue _ | wake _ | rouse _ | kill _ | assign _ _ | setUid _ _ _ | setGid _ _ _ => true
  | _ => false

/-- The process that an act takes off its CPU, with the CPU, unless it exits. -/
def leaves? : Act → Option (Cpu × Slot)
  | await cpu i _ | park cpu i _ _ | yield cpu i _ => some (cpu, i)
  | _ => none

end Act

namespace Event

/-- The CPU on which an event lets its process go on: in a new request, or in a wait or a timed
sleep that continues after a switch. -/
def cpu? : Event → Option Cpu
  | start request _ => request.cpu?
  | answer ⟨_, .switching _ .wait⟩ cpu _ => some cpu
  | answer ⟨_, .switching _ (.sleepFor _ _)⟩ cpu _ => some cpu
  | _ => none

/-- The CPU whose process is asked to exit. -/
def exits? : Event → Option Cpu
  | start (.exit cpu) _ | start (.terminate cpu) _ => some cpu
  | _ => none

/-- Who is asked to exit acts. -/
theorem cpu_of_exits {e : Event} {cpu : Cpu} (h : e.exits? = some cpu) : e.cpu? = some cpu := by
  unfold exits? at h
  split at h <;> cases h <;> rfl

/-- The blueprint that an event goes by. -/
def plan? : Event → Option Blueprint
  | start _ _ => none
  | answer task _ _ => task.suspension.plan?

/-- The CPU of a process that has closed one more file. -/
def closes? : Event → Option Cpu
  | start _ _ => none
  | answer task _ _ => task.suspension.closes?

/-- An event with a result neither gives back a handoff nor gives one out. -/
def Private (e : Event) (p : Progress) : Prop := e.givesBack = none ∧ e.givesOut p = none

theorem givesOut_eq_none {e : Event} {p : Progress} (h : p.isHandoff = false) :
    e.givesOut p = none := by
  unfold givesOut
  split
  · cases h
  · cases h
  · rfl

/-- The course of an event: its acts and how it ends, as far as processes and CPUs go. -/
inductive Course (e : Event) : (acts : List Act) → (p : Progress) → Prop
  /-- Nothing happens to the process on a CPU, and no child starts. -/
  | neutral {acts : List Act} {p : Progress} (hacts : ∀ a ∈ acts, a.isNeutral = true)
      (hplan : ∀ plan, p.plan? = some plan → e.plan? = some plan) (hcloses : p.closes? = none)
      (hprivate : e.Private p) : Course e acts p
  /-- A process begins to fork. -/
  | fork {cpu : Cpu} {plan : Blueprint} {rest : List Act} {p : Progress} (hcpu : e.cpu? = some cpu)
      (hrest : ∀ a ∈ rest, a.isNeutral = true) (hplan : ∀ q, p.plan? = some q → q = plan)
      (hcloses : p.closes? = none) (hprivate : e.Private p) : Course e (.copy cpu plan :: rest) p
  /-- A child starts. -/
  | launch {i : Slot} {plan : Blueprint} {space : AddressSpace} {files : List FileHandle}
      {cwd : Option FileHandle} {p : Progress} (hplan : e.plan? = some plan) (hplain : p.Plain)
      (hprivate : e.Private p) : Course e [.launch i plan space files cwd] p
  /-- A process begins to exit, and has files to close. -/
  | surrender {cpu : Cpu} {i : Slot} {p : Progress} (hexits : e.exits? = some cpu)
      (hcloses : p.closes? = some cpu) (hplan : p.plan? = none) (hprivate : e.Private p) :
      Course e [.surrender cpu i] p
  /-- A process exits at once. -/
  | exit {cpu : Cpu} {i j : Slot} {now : Nat} {p : Progress} (hexits : e.exits? = some cpu)
      (hswitched : p.isSwitched = true) (hprivate : e.Private p) :
      Course e [.surrender cpu i, .retire cpu j now] p
  /-- A process closes one more file. -/
  | close {task : Task} {reply : task.suspension.call.Answer} {cpu : Cpu} {clock : Clock}
      {p : Progress} (he : e = .answer task reply clock) (hcpu : task.suspension.closes? = some cpu)
      (hcloses : p.closes? = some cpu) (hplan : p.plan? = none) (hprivate : e.Private p) :
      Course e [] p
  /-- A process exits after its last file has been closed. -/
  | retire {task : Task} {reply : task.suspension.call.Answer} {cpu : Cpu} {i : Slot}
      {clock : Clock} {now : Nat} {p : Progress} (he : e = .answer task reply clock)
      (hcpu : task.suspension.closes? = some cpu) (hswitched : p.isSwitched = true)
      (hprivate : e.Private p) : Course e [.retire cpu i now] p
  /-- A process reaps a child. -/
  | reap {cpu : Cpu} {me i : Slot} {p : Progress} (hcpu : e.cpu? = some cpu) (hplain : p.Plain)
      (hprivate : e.Private p) : Course e [.reap cpu me i] p
  /-- A process leaves its CPU. -/
  | leave {a : Act} {cpu : Cpu} {i : Slot} {p : Progress} (hcpu : e.cpu? = some cpu)
      (hleaves : a.leaves? = some (cpu, i)) (hswitched : p.isSwitched = true)
      (hchannel : ∀ pid now, a = .park cpu i (.process pid) now →
        ∃ clock, e = .start (.sleep cpu (.process pid)) clock)
      (hprivate : e.Private p) : Course e [a] p
  /-- A CPU takes a process. -/
  | dispatch {cpu : Cpu} {handoff : Handoff} {now : Nat} {p : Progress}
      (hout : e.givesOut p = some (cpu, handoff)) (hback : e.givesBack = none) (hplain : p.Plain) :
      Course e [.dispatch cpu handoff now] p
  /-- A CPU is taken back. -/
  | reclaim {cpu : Cpu} {handoff : Handoff} {now : Nat} {p : Progress}
      (hback : e.givesBack = some (cpu, handoff)) (hout : e.givesOut p = none) (hplain : p.Plain) :
      Course e [.reclaim cpu handoff.slot now] p

variable {e : Event} {acts : List Act} {p : Progress} {now : Nat} {clock : Clock} {cpu : Cpu}

/-- An event dispatches, or takes a CPU back, or leaves the CPUs alone. -/
theorem Course.quiet_or (h : e.Course acts p) :
    ((∀ a ∈ acts, a.isQuiet = true) ∧ e.Private p) ∨
      (∃ cpu handoff now, acts = [.dispatch cpu handoff now] ∧
        e.givesOut p = some (cpu, handoff) ∧ e.givesBack = none) ∨
      ∃ cpu handoff now, acts = [.reclaim cpu handoff.slot now] ∧
        e.givesBack = some (cpu, handoff) ∧ e.givesOut p = none := by
  have hneutral : ∀ a : Act, a.isNeutral = true → a.isQuiet = true := by
    intro a ha
    cases a <;> first | rfl | cases ha
  cases h with
  | neutral hacts _ _ hprivate => exact .inl ⟨fun a ha => hneutral a (hacts a ha), hprivate⟩
  | fork _ hrest _ _ hprivate =>
    refine .inl ⟨fun a ha => ?_, hprivate⟩
    rcases List.mem_cons.1 ha with rfl | ha
    · rfl
    · exact hneutral a (hrest a ha)
  | launch _ _ hprivate | surrender _ _ _ hprivate | exit _ _ hprivate | close _ _ _ _ hprivate
  | retire _ _ _ hprivate | reap _ _ hprivate =>
    exact .inl ⟨by simp [Act.isQuiet], hprivate⟩
  | @leave a _ _ _ _ hleaves _ _ hprivate =>
    refine .inl ⟨fun b hb => ?_, hprivate⟩
    rw [List.mem_singleton.1 hb]
    cases a <;> first | rfl | cases hleaves
  | @dispatch cpu handoff now _ hout hback _ =>
    exact .inr (.inl ⟨cpu, handoff, now, rfl, hout, hback⟩)
  | @reclaim cpu handoff now _ hback hout _ =>
    exact .inr (.inr ⟨cpu, handoff, now, rfl, hback, hout⟩)

/-! ### Parts of scripts -/

/-- The rest of an allocation. -/
theorem course_allocateFor {purpose : Purpose} (h : Script.allocateFor purpose now acts p) :
    (∀ a ∈ acts, a.isNeutral = true) ∧ p.closes? = none ∧ p.isHandoff = false ∧
      ∀ q, p.plan? = some q → purpose = .child q := by
  rcases h with ⟨rfl, rfl⟩ | ⟨i, rfl, rfl⟩
  · exact ⟨nofun, rfl, by cases purpose <;> rfl, nofun⟩
  · refine ⟨by simp [Act.isNeutral], rfl, rfl, fun q hq => ?_⟩
    cases purpose <;> cases hq
    rfl

theorem course_abandonFork {i : Slot} (hback : e.givesBack = none)
    (h : Script.abandonFork i acts p) : e.Course acts p := by
  rcases h with ⟨stack, rfl, rfl⟩ | ⟨rfl, rfl⟩ <;>
  · exact .neutral (by simp [Act.isNeutral]) nofun rfl ⟨hback, givesOut_eq_none rfl⟩

/-- What follows once a slot has its stack. -/
theorem course_furnish {i : Slot} {purpose : Purpose} (h : Script.furnish i purpose acts p) :
    (∀ a ∈ acts, a.isNeutral = true) ∧
      (∀ plan, p.plan? = some plan → (Suspension.allocating i purpose).plan? = some plan) ∧
      p.closes? = none ∧ p.isHandoff = false := by
  cases purpose with
  | bare =>
    obtain ⟨rfl, rfl⟩ := h
    exact ⟨nofun, nofun, rfl, rfl⟩
  | root name image =>
    obtain ⟨rfl, rfl⟩ := h
    exact ⟨nofun, nofun, rfl, rfl⟩
  | child plan =>
    rcases Script.cases_furnish_child h with ⟨source, -, rfl, rfl⟩ | ⟨-, h⟩
    · exact ⟨nofun, fun _ hq => hq, rfl, rfl⟩
    · rcases h with ⟨stack, rfl, rfl⟩ | ⟨rfl, rfl⟩ <;>
      · exact ⟨by simp [Act.isNeutral], nofun, rfl, rfl⟩

theorem course_finishFork {i : Slot} {plan : Blueprint} {space : AddressSpace}
    {files : List FileHandle} {cwd : Option FileHandle} (hback : e.givesBack = none)
    (hplan : e.plan? = some plan) (h : Script.finishFork i plan space files cwd acts p) :
    e.Course acts p := by
  obtain ⟨pid, rfl, rfl⟩ := h
  exact .launch hplan ⟨rfl, rfl⟩ ⟨hback, givesOut_eq_none rfl⟩

theorem course_duplicateFiles {i : Slot} {plan : Blueprint} {space : AddressSpace}
    {copies files : List FileHandle} (hback : e.givesBack = none) (hplan : e.plan? = some plan)
    (h : Script.duplicateFiles i plan space copies files acts p) : e.Course acts p := by
  rcases Script.cases_duplicateFiles h with ⟨file, rest, rfl, rfl⟩ | ⟨dir, rfl, rfl⟩ | h
  · exact .neutral nofun (fun _ hq => hq ▸ hplan) rfl ⟨hback, givesOut_eq_none rfl⟩
  · exact .neutral nofun (fun _ hq => hq ▸ hplan) rfl ⟨hback, givesOut_eq_none rfl⟩
  · exact course_finishFork hback hplan h

theorem course_exit {last : Resumption} (hexits : e.exits? = some cpu)
    (hback : e.givesBack = none) (h : Script.exit cpu last now acts p) : e.Course acts p := by
  obtain ⟨i, files, rest, rfl, h⟩ := h
  cases files with
  | cons file files =>
    obtain ⟨rfl, rfl⟩ := h
    exact .surrender hexits rfl rfl ⟨hback, givesOut_eq_none rfl⟩
  | nil =>
    obtain ⟨j, rfl, rfl⟩ := h
    exact .exit hexits rfl ⟨hback, givesOut_eq_none rfl⟩

/-- The release of what is left of a child. -/
theorem course_releaseSpace {reaper : Reaper} {pid : Pid} {space : Option AddressSpace}
    (h : Script.releaseSpace reaper pid space acts p) :
    acts = [] ∧ p.Plain ∧ p.isHandoff = false := by
  cases space <;> obtain ⟨rfl, rfl⟩ := h
  · exact ⟨rfl, ⟨rfl, rfl⟩, by cases reaper <;> rfl⟩
  · exact ⟨rfl, ⟨rfl, rfl⟩, rfl⟩

theorem course_release {reaper : Reaper} {remains : Remains}
    (h : Script.release reaper remains acts p) : acts = [] ∧ p.Plain ∧ p.isHandoff = false := by
  rcases Script.cases_release h with ⟨_, _, rfl, rfl⟩ | ⟨_, rfl, rfl⟩ | ⟨rfl, rfl⟩
  · exact ⟨rfl, ⟨rfl, rfl⟩, rfl⟩
  · exact ⟨rfl, ⟨rfl, rfl⟩, rfl⟩
  · exact ⟨rfl, ⟨rfl, rfl⟩, by cases reaper <;> rfl⟩

theorem course_waitRound (hcpu : e.cpu? = some cpu) (hback : e.givesBack = none)
    (h : Script.waitRound cpu now acts p) : e.Course acts p := by
  rcases h with ⟨rfl, rfl⟩ | ⟨me, i, remains, rest, rfl, h⟩ | ⟨me, rfl, rfl⟩
  · exact .neutral nofun nofun rfl ⟨hback, givesOut_eq_none rfl⟩
  · obtain ⟨rfl, hplain, hhandoff⟩ := course_release h
    exact .reap hcpu hplain ⟨hback, givesOut_eq_none hhandoff⟩
  · exact .leave hcpu rfl rfl nofun ⟨hback, givesOut_eq_none rfl⟩

theorem course_sleepRound {first ticks : Nat} (hcpu : e.cpu? = some cpu)
    (hback : e.givesBack = none) (h : Script.sleepRound cpu first ticks now acts p) :
    e.Course acts p := by
  rcases h with ⟨result, rfl, rfl⟩ | ⟨i, rfl, rfl⟩
  · exact .neutral nofun nofun rfl ⟨hback, givesOut_eq_none rfl⟩
  · exact .leave hcpu rfl rfl nofun ⟨hback, givesOut_eq_none rfl⟩

theorem course_refusable {act : Slot → Act} (hact : ∀ i, (act i).isNeutral = true)
    (hback : e.givesBack = none) (h : Script.refusable act acts p) : e.Course acts p := by
  rcases h with ⟨why, rfl, rfl⟩ | ⟨i, rfl, rfl⟩
  · exact .neutral nofun nofun rfl ⟨hback, givesOut_eq_none rfl⟩
  · exact .neutral (by simp [hact]) nofun rfl ⟨hback, givesOut_eq_none rfl⟩

/-- One neutral act. -/
theorem course_single {a : Act} {q : Progress} (ha : a.isNeutral = true) (hplain : q.Plain)
    (hhandoff : q.isHandoff = false) (hback : e.givesBack = none) (h : Script.single a q acts p) :
    e.Course acts p := by
  obtain ⟨rfl, rfl⟩ := h
  exact .neutral (by simp [ha]) (by simp [hplain.1]) hplain.2 ⟨hback, givesOut_eq_none hhandoff⟩

theorem course_only {q : Progress} (hplain : q.Plain) (hhandoff : q.isHandoff = false)
    (hback : e.givesBack = none) (h : Script.only q acts p) : e.Course acts p := by
  obtain ⟨rfl, rfl⟩ := h
  exact .neutral nofun (by simp [hplain.1]) hplain.2 ⟨hback, givesOut_eq_none hhandoff⟩

/-! ### Events -/

/-- The courses of a request. -/
theorem course_of_start {request : Request} (h : Script.start clock request acts p) :
    (Event.start request clock).Course acts p := by
  cases request with
  | allocate =>
    obtain ⟨hacts, hcloses, hhandoff, hplan⟩ := course_allocateFor h
    exact .neutral hacts (fun q hq => nomatch hplan q hq) hcloses ⟨rfl, givesOut_eq_none hhandoff⟩
  | boot name image =>
    obtain ⟨hacts, hcloses, hhandoff, hplan⟩ := course_allocateFor h
    exact .neutral hacts (fun q hq => nomatch hplan q hq) hcloses ⟨rfl, givesOut_eq_none hhandoff⟩
  | fork cpu =>
    obtain ⟨plan, rest, rfl, h⟩ := h
    obtain ⟨hrest, hcloses, hhandoff, hplan⟩ := course_allocateFor h
    refine .fork rfl hrest (fun q hq => ?_) hcloses ⟨rfl, givesOut_eq_none hhandoff⟩
    cases hplan q hq
    rfl
  | exit cpu => exact course_exit rfl rfl h
  | terminate cpu => exact course_exit rfl rfl h
  | wait cpu => exact course_waitRound rfl rfl h
  | poll cpu =>
    rcases h with ⟨result, -, rfl, rfl⟩ | ⟨me, i, remains, rest, rfl, h⟩
    · exact .neutral nofun nofun rfl ⟨rfl, givesOut_eq_none rfl⟩
    · obtain ⟨rfl, hplain, hhandoff⟩ := course_release h
      exact .reap rfl hplain ⟨rfl, givesOut_eq_none hhandoff⟩
  | sleep cpu channel =>
    obtain ⟨i, rfl, rfl⟩ := h
    refine .leave rfl rfl rfl (fun pid now' ha => ?_) ⟨rfl, givesOut_eq_none rfl⟩
    cases ha
    exact ⟨clock, rfl⟩
  | sleepFor cpu ticks => exact course_sleepRound rfl rfl h
  | yield cpu =>
    obtain ⟨i, rfl, rfl⟩ := h
    exact .leave rfl rfl rfl nofun ⟨rfl, givesOut_eq_none rfl⟩
  | switch cpu left =>
    obtain ⟨i, rfl, rfl⟩ := h
    exact .neutral (by simp [Act.isNeutral]) nofun rfl ⟨rfl, givesOut_eq_none rfl⟩
  | pass cpu => exact course_only ⟨rfl, rfl⟩ rfl rfl h
  | serve cpu => exact course_only ⟨rfl, rfl⟩ rfl rfl h
  | dispatch cpu =>
    rcases h with h | ⟨handoff, rfl, rfl⟩
    · exact course_only ⟨rfl, rfl⟩ rfl rfl h
    · exact .dispatch rfl rfl ⟨rfl, rfl⟩
  | reclaim cpu handoff =>
    obtain ⟨rfl, rfl⟩ := h
    exact .reclaim rfl (givesOut_eq_none rfl) ⟨rfl, rfl⟩
  | signal channel =>
    obtain ⟨count, h⟩ := h
    exact course_single rfl ⟨rfl, rfl⟩ rfl rfl h
  | tick => exact course_single rfl ⟨rfl, rfl⟩ rfl rfl h
  | rouse i => exact course_single rfl ⟨rfl, rfl⟩ rfl rfl h
  | kill pid => exact course_refusable (fun _ => rfl) rfl h
  | setPriority pid priority => exact course_refusable (fun _ => rfl) rfl h
  | setUid cpu uid => exact course_refusable (fun _ => rfl) rfl h
  | setGid cpu gid => exact course_refusable (fun _ => rfl) rfl h
  | sweep => exact course_single rfl ⟨rfl, rfl⟩ rfl rfl h
  | sweepIfDue due => exact course_single rfl ⟨rfl, rfl⟩ rfl rfl h

/-- The courses of a request that waits. -/
theorem course_of_resume {task : Task} {reply : task.suspension.call.Answer}
    (h : Script.resume clock task.suspension reply acts p) :
    (Event.answer task reply clock).Course acts p := by
  obtain ⟨caller, s⟩ := task
  cases s with
  | allocating i purpose =>
    cases reply with
    | some stack =>
      obtain ⟨rest, rfl, h⟩ := h
      obtain ⟨hrest, hplan, hcloses, hhandoff⟩ := course_furnish h
      exact .neutral (by simpa [Act.isNeutral] using hrest) hplan hcloses
        ⟨rfl, givesOut_eq_none hhandoff⟩
    | none => exact course_single rfl ⟨rfl, rfl⟩ (by cases purpose <;> rfl) rfl h
  | mapping i name image =>
    cases reply with
    | some space =>
      obtain ⟨pid, h⟩ := h
      exact course_single rfl ⟨rfl, rfl⟩ rfl rfl h
    | none => exact h.elim
  | copying i plan source =>
    cases reply with
    | some space => exact course_duplicateFiles rfl rfl h
    | none => exact course_abandonFork rfl h
  | duplicating i plan space copies file rest => exact course_duplicateFiles rfl rfl h
  | duplicatingCwd i plan space copies dir => exact course_finishFork rfl rfl h
  | undoing stack => exact course_only ⟨rfl, rfl⟩ rfl rfl h
  | closing cpu last file rest =>
    cases rest with
    | cons file rest =>
      obtain ⟨rfl, rfl⟩ := h
      exact .close rfl rfl rfl rfl ⟨rfl, givesOut_eq_none rfl⟩
    | nil =>
      obtain ⟨i, rfl, rfl⟩ := h
      exact .retire rfl rfl rfl ⟨rfl, givesOut_eq_none rfl⟩
  | switching cpu resumption =>
    cases resumption with
    | exit => exact course_only ⟨rfl, rfl⟩ rfl rfl h
    | terminate => exact h.elim
    | wait => exact course_waitRound rfl rfl h
    | proceed => exact course_only ⟨rfl, rfl⟩ rfl rfl h
    | sleepFor first ticks => exact course_sleepRound rfl rfl h
  | freeingStack reaper pid stack space =>
    obtain ⟨rfl, hplain, hhandoff⟩ := course_releaseSpace h
    exact .neutral nofun (by simp [hplain.1]) hplain.2 ⟨rfl, givesOut_eq_none hhandoff⟩
  | freeingSpace reaper pid space =>
    exact course_only (by cases reaper <;> exact ⟨rfl, rfl⟩) (by cases reaper <;> rfl) rfl h
  | enabling cpu forever =>
    rcases h with ⟨handoff, rfl, rfl⟩ | h
    · exact .dispatch rfl rfl ⟨rfl, rfl⟩
    · exact course_single rfl (by cases forever <;> exact ⟨rfl, rfl⟩) (by cases forever <;> rfl)
        rfl h
  | running cpu handoff forever =>
    obtain ⟨rfl, rfl⟩ := h
    exact .reclaim rfl (givesOut_eq_none (by cases forever <;> rfl))
      (by cases forever <;> exact ⟨rfl, rfl⟩)
  | idling cpu => exact course_only ⟨rfl, rfl⟩ rfl rfl h

/-- **Every script takes one of the courses.** -/
theorem course_of_script (h : e.script acts p) : e.Course acts p := by
  cases e with
  | start request clock => exact course_of_start h
  | answer task reply clock => exact course_of_resume h

/-! ### Blueprints -/

/-- A child starts by the blueprint of the event. -/
theorem Course.plan_of_launch {i : Slot} {plan : Blueprint} {space : AddressSpace}
    {files : List FileHandle} {cwd : Option FileHandle} (h : e.Course acts p)
    (hmem : Act.launch i plan space files cwd ∈ acts) : e.plan? = some plan := by
  cases h with
  | neutral hacts => cases hacts _ hmem
  | fork _ hrest => cases hrest _ ((List.mem_cons.1 hmem).resolve_left nofun)
  | launch hplan =>
    cases List.mem_singleton.1 hmem
    exact hplan
  | @leave a _ _ _ _ hleaves =>
    cases List.mem_singleton.1 hmem
    cases hleaves
  | surrender | exit | close | retire | reap | dispatch | reclaim => simp at hmem

/-- A blueprint is passed on, or drawn up for a process on a CPU. -/
theorem Course.plan_or_cpu {plan : Blueprint} (h : e.Course acts p) (hplan : p.plan? = some plan) :
    e.plan? = some plan ∨ ∃ cpu rest, e.cpu? = some cpu ∧ acts = .copy cpu plan :: rest := by
  have hswitched : p.isSwitched = true → False := by
    intro hs
    cases p with
    | waiting s => cases (s.isSwitched_of_plan hplan).symm.trans hs
    | returned => cases hplan
  cases h with
  | neutral _ hcarried => exact .inl (hcarried plan hplan)
  | @fork cpu plan' rest _ hcpu _ hcopied =>
    obtain rfl := hcopied plan hplan
    exact .inr ⟨cpu, rest, hcpu, rfl⟩
  | launch _ hplain | reap _ hplain | dispatch _ _ hplain | reclaim _ _ hplain =>
    cases hplain.1.symm.trans hplan
  | surrender _ _ hnone | close _ _ _ hnone => cases hnone.symm.trans hplan
  | exit _ hs | retire _ _ hs | leave _ _ hs => exact (hswitched hs).elim

/-! ### Slots and levels -/

/-- The embryo that an event goes on with. -/
def slot? : Event → Option Slot
  | start _ _ => none
  | answer task _ _ => task.suspension.slot?

/-- The embryo that an event makes the root process. -/
def crowns? : Event → Option Slot
  | answer ⟨_, .mapping i _ _⟩ _ _ => some i
  | _ => none

theorem slot_of_crowns {i : Slot} (h : e.crowns? = some i) : e.slot? = some i := by
  unfold crowns? at h
  split at h <;> cases h
  rfl

/-- The CPU for which an event may pick a process. -/
def picksFor? : Event → Option Cpu
  | start (.dispatch cpu) _ | answer ⟨_, .enabling cpu _⟩ _ _ => some cpu
  | _ => none

/-- What it takes for an event to make an act: an embryo is furnished, started and freed by the
request that took its slot, and becomes the root process once its image has been mapped; a process
exits by a request to do so, at once or after its files have been closed, is put on a level or
switches away once more by nothing but a request to do so, and is dispatched by a request or in a
round of its CPU. -/
def Owns (e : Event) : Act → Prop
  | .giveStack i _ | .discard i | .abandon i | .launch i _ _ _ _ => e.slot? = some i
  | .crown i _ _ => e.crowns? = some i
  | .depart cpu _ left => ∃ clock, e = .start (.switch cpu left) clock
  | .assign _ priority => ∃ pid clock, e = .start (.setPriority pid priority) clock
  | .retire cpu _ _ => e.exits? = some cpu ∨ e.closes? = some cpu
  | .dispatch cpu _ _ => e.picksFor? = some cpu
  | _ => True

section Owns

variable {i : Slot} {plan : Blueprint} {space : AddressSpace} {copies files : List FileHandle}

theorem owns_single {a : Act} {q : Progress} (h : Script.single a q acts p) (ha : e.Owns a) :
    ∀ b ∈ acts, e.Owns b := by
  obtain ⟨rfl, -⟩ := h
  intro b hb
  rwa [List.mem_singleton.1 hb]

theorem owns_only {q : Progress} (h : Script.only q acts p) : ∀ b ∈ acts, e.Owns b := by
  obtain ⟨rfl, -⟩ := h
  nofun

theorem owns_after {a : Act} {S : Script} (h : Script.after a S acts p) (ha : e.Owns a)
    (hrest : ∀ rest, S rest p → ∀ b ∈ rest, e.Owns b) : ∀ b ∈ acts, e.Owns b := by
  obtain ⟨rest, rfl, h⟩ := h
  exact List.forall_mem_cons.2 ⟨ha, hrest rest h⟩

theorem owns_allocateFor {purpose : Purpose} (h : Script.allocateFor purpose now acts p) :
    ∀ b ∈ acts, e.Owns b := by
  rcases h with h | ⟨i, h⟩
  · exact owns_only h
  · exact owns_single h trivial

theorem owns_abandonFork (hi : e.slot? = some i) (h : Script.abandonFork i acts p) :
    ∀ b ∈ acts, e.Owns b := by
  rcases h with ⟨stack, h⟩ | h
  · exact owns_single h hi
  · exact owns_single h hi

theorem owns_furnish {purpose : Purpose} (hi : e.slot? = some i)
    (h : Script.furnish i purpose acts p) : ∀ b ∈ acts, e.Owns b := by
  cases purpose with
  | bare => exact owns_only h
  | root name image => exact owns_only h
  | child plan =>
    rcases Script.cases_furnish_child h with ⟨source, -, h⟩ | ⟨-, h⟩
    · exact owns_only h
    · exact owns_abandonFork hi h

theorem owns_finishFork {cwd : Option FileHandle} (hi : e.slot? = some i)
    (h : Script.finishFork i plan space files cwd acts p) : ∀ b ∈ acts, e.Owns b := by
  obtain ⟨pid, h⟩ := h
  exact owns_single h hi

theorem owns_duplicateFiles (hi : e.slot? = some i)
    (h : Script.duplicateFiles i plan space copies files acts p) : ∀ b ∈ acts, e.Owns b := by
  rcases Script.cases_duplicateFiles h with ⟨file, rest, h⟩ | ⟨dir, h⟩ | h
  · exact owns_only h
  · exact owns_only h
  · exact owns_finishFork hi h

theorem owns_closeFiles {last : Resumption} (hcpu : e.exits? = some cpu ∨ e.closes? = some cpu)
    (h : Script.closeFiles cpu last now files acts p) : ∀ b ∈ acts, e.Owns b := by
  cases files with
  | cons file rest => exact owns_only h
  | nil =>
    obtain ⟨i, h⟩ := h
    exact owns_single h hcpu

theorem owns_exit {last : Resumption} (hcpu : e.exits? = some cpu)
    (h : Script.exit cpu last now acts p) : ∀ b ∈ acts, e.Owns b := by
  obtain ⟨i, files, h⟩ := h
  exact owns_after h trivial fun rest => owns_closeFiles (.inl hcpu)

theorem owns_release {reaper : Reaper} {remains : Remains}
    (h : Script.release reaper remains acts p) : ∀ b ∈ acts, e.Owns b := by
  rw [(course_release h).1]
  nofun

theorem owns_waitRound (h : Script.waitRound cpu now acts p) : ∀ b ∈ acts, e.Owns b := by
  rcases h with h | ⟨me, i, remains, h⟩ | ⟨me, h⟩
  · exact owns_only h
  · exact owns_after h trivial fun rest => owns_release
  · exact owns_single h trivial

theorem owns_sleepRound {first ticks : Nat} (h : Script.sleepRound cpu first ticks now acts p) :
    ∀ b ∈ acts, e.Owns b := by
  rcases h with ⟨result, h⟩ | ⟨i, h⟩
  · exact owns_only h
  · exact owns_single h trivial

theorem owns_refusable {act : Slot → Act} (h : Script.refusable act acts p)
    (hact : ∀ i, e.Owns (act i)) : ∀ b ∈ acts, e.Owns b := by
  rcases h with ⟨why, h⟩ | ⟨i, h⟩
  · exact owns_only h
  · exact owns_single h (hact i)

end Owns

theorem owns_of_start {request : Request} (h : Script.start clock request acts p) :
    ∀ a ∈ acts, (Event.start request clock).Owns a := by
  cases request with
  | allocate | boot => exact owns_allocateFor h
  | fork cpu =>
    obtain ⟨plan, h⟩ := h
    exact owns_after h trivial fun rest => owns_allocateFor
  | exit | terminate => exact owns_exit rfl h
  | wait => exact owns_waitRound h
  | poll cpu =>
    rcases h with ⟨result, -, h⟩ | ⟨me, i, remains, h⟩
    · exact owns_only h
    · exact owns_after h trivial fun rest => owns_release
  | sleep | yield | signal =>
    obtain ⟨_, h⟩ := h
    exact owns_single h trivial
  | switch =>
    obtain ⟨_, h⟩ := h
    exact owns_single h ⟨clock, rfl⟩
  | sleepFor => exact owns_sleepRound h
  | pass | serve => exact owns_only h
  | dispatch cpu =>
    rcases h with h | ⟨handoff, h⟩
    · exact owns_only h
    · exact owns_single h rfl
  | reclaim | tick | rouse | sweep | sweepIfDue => exact owns_single h trivial
  | setPriority pid priority => exact owns_refusable h (fun _ => ⟨pid, clock, rfl⟩)
  | kill | setUid | setGid => exact owns_refusable h (fun _ => trivial)

theorem owns_of_resume {task : Task} {reply : task.suspension.call.Answer}
    (h : Script.resume clock task.suspension reply acts p) :
    ∀ a ∈ acts, (Event.answer task reply clock).Owns a := by
  obtain ⟨caller, s⟩ := task
  cases s with
  | allocating i purpose =>
    cases reply with
    | some stack => exact owns_after h rfl fun rest => owns_furnish rfl
    | none => exact owns_single h rfl
  | mapping i name image =>
    cases reply with
    | some space =>
      obtain ⟨pid, h⟩ := h
      exact owns_single h rfl
    | none => exact h.elim
  | copying i plan source =>
    cases reply with
    | some space => exact owns_duplicateFiles rfl h
    | none => exact owns_abandonFork rfl h
  | duplicating => exact owns_duplicateFiles rfl h
  | duplicatingCwd => exact owns_finishFork rfl h
  | undoing | freeingSpace | idling => exact owns_only h
  | closing => exact owns_closeFiles (.inr rfl) h
  | switching cpu resumption =>
    cases resumption with
    | exit | proceed => exact owns_only h
    | terminate => exact h.elim
    | wait => exact owns_waitRound h
    | sleepFor => exact owns_sleepRound h
  | freeingStack =>
    rw [(course_releaseSpace h).1]
    nofun
  | enabling cpu forever =>
    rcases h with ⟨handoff, h⟩ | h
    · exact owns_single h rfl
    · exact owns_single h trivial
  | running => exact owns_single h trivial

/-- An event makes only acts that it may make. -/
theorem owns_of_script (h : e.script acts p) : ∀ a ∈ acts, e.Owns a := by
  cases e with
  | start request clock => exact owns_of_start h
  | answer task reply clock => exact owns_of_resume h

end Event

end FeedbackQueue
