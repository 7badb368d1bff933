import FeedbackQueue.Proofs.Lifecycle
import FeedbackQueue.Proofs.Reaping
import FeedbackQueue.Proofs.Waiting

/-!
# Kills

A kill is a request: it raises a flag and wakes the process, which has to see the flag when it runs
again.  Waits for a child and timed sleeps look for it before they sleep, in every round, and they
do so in the same section in which they go to sleep.  So the order of a kill and a sleep does not
matter: the flag is seen by the next round, or the kill finds the process asleep and wakes it.

## Main definitions

* `Machine.OneAtATime` : nothing new is begun for a process that is in the middle of something.
* `Machine.Blocks` : a process sleeps in a wait or a timed sleep.
* `View.Doomed` : whoever has a pid has been killed.
* `Machine.Heeds` : the waits and timed sleeps of a process end in their next round.

## Main statements

* `Machine.Alert.of_perform_eq_ok` : nobody goes to sleep in them who has been killed.
* `Machine.heeds_of_doomed` : the rounds of a process that has been killed.
* `Machine.heeded_of_history` : no kill is lost.
-/

namespace FeedbackQueue

/-! ### Rounds -/

/-- Whether a process looks for a kill before it sleeps again. -/
def Resumption.isInterruptible : Resumption → Bool
  | .wait | .sleepFor _ _ => true
  | _ => false

/-- Whether the process of a request has switched away in a wait or a timed sleep. -/
def Suspension.isInterruptible : Suspension → Bool
  | .switching _ resumption => resumption.isInterruptible
  | _ => false

/-- Whether a request goes on in a wait or a timed sleep from which its process has switched
away. -/
def Progress.isInterruptible : Progress → Bool
  | .waiting s => s.isInterruptible
  | .returned _ => false

namespace Event

/-- The CPU on which an event is a round of a wait. -/
def scans? : Event → Option Cpu
  | start (.wait cpu) _ => some cpu
  | answer ⟨_, .switching _ .wait⟩ cpu _ => some cpu
  | _ => none

/-- The CPU on which an event is a round of a timed sleep, with the start of the sleep and its
ticks. -/
def naps? : Event → Option (Cpu × Nat × Nat)
  | start (.sleepFor cpu ticks) clock => some (cpu, clock.begun, ticks)
  | answer ⟨_, .switching _ (.sleepFor first ticks)⟩ cpu _ => some (cpu, first, ticks)
  | _ => none

variable {e : Event} {acts : List Act} {p : Progress} {i : Slot} {cpu : Cpu} {clock : Clock}
  {now first ticks : Nat}

theorem cpu_of_scans (h : e.scans? = some cpu) : e.cpu? = some cpu := by
  unfold scans? at h
  split at h <;> cases h <;> rfl

theorem cpu_of_naps (h : e.naps? = some (cpu, first, ticks)) : e.cpu? = some cpu := by
  unfold naps? at h
  split at h <;> cases h <;> rfl

/-- What a request does that switches away in a wait or a timed sleep: a round of it, unless it has
closed files. -/
inductive Rounds (e : Event) : Prop
  /-- A round of a wait. -/
  | scan (cpu : Cpu) (hscan : e.scans? = some cpu)
  /-- A round of a timed sleep. -/
  | nap (cpu : Cpu) (first ticks : Nat) (hnap : e.naps? = some (cpu, first, ticks))
  /-- The rest of an exit. -/
  | close (cpu : Cpu) (hcloses : e.closes? = some cpu)

theorem not_isInterruptible_allocateFor {purpose : Purpose}
    (h : Script.allocateFor purpose now acts p) : p.isInterruptible = false := by
  rcases h with ⟨-, rfl⟩ | ⟨i, -, rfl⟩ <;> rfl

theorem not_isInterruptible_abandonFork (h : Script.abandonFork i acts p) :
    p.isInterruptible = false := by
  rcases h with ⟨stack, -, rfl⟩ | ⟨-, rfl⟩ <;> rfl

theorem rounds_of_start {request : Request} (h : Script.start clock request acts p)
    (hp : p.isInterruptible = true) : (start request clock).Rounds := by
  cases request with
  | wait cpu => exact .scan cpu rfl
  | sleepFor cpu ticks => exact .nap cpu clock.begun ticks rfl
  | allocate | boot => cases (not_isInterruptible_allocateFor h).symm.trans hp
  | fork =>
    obtain ⟨plan, rest, -, h⟩ := h
    cases (not_isInterruptible_allocateFor h).symm.trans hp
  | exit | terminate =>
    obtain ⟨i, files, rest, -, h⟩ := h
    cases files with
    | cons =>
      obtain ⟨-, rfl⟩ := h
      cases hp
    | nil =>
      obtain ⟨j, -, rfl⟩ := h
      cases hp
  | poll =>
    rcases h with ⟨result, -, -, rfl⟩ | ⟨me, i, remains, rest, -, h⟩
    · cases hp
    · rcases Script.cases_release h with ⟨_, _, -, rfl⟩ | ⟨_, -, rfl⟩ | ⟨-, rfl⟩ <;> cases hp
  | sleep | yield | switch | signal =>
    obtain ⟨_, -, rfl⟩ := h
    cases hp
  | dispatch =>
    rcases h with ⟨-, rfl⟩ | ⟨handoff, -, rfl⟩
    · cases hp
    · cases hp
  | kill | setPriority | setUid | setGid =>
    rcases h with ⟨why, -, rfl⟩ | ⟨i, -, rfl⟩
    · cases hp
    · cases hp
  | pass | serve | reclaim | tick | rouse | sweep | sweepIfDue =>
    obtain ⟨-, rfl⟩ := h
    cases hp

theorem not_isInterruptible_duplicateFiles {plan : Blueprint} {space : AddressSpace}
    {copies files : List FileHandle} (h : Script.duplicateFiles i plan space copies files acts p) :
    p.isInterruptible = false := by
  rcases Script.cases_duplicateFiles h with
    ⟨file, rest, -, rfl⟩ | ⟨dir, -, rfl⟩ | ⟨pid, -, rfl⟩ <;> rfl

theorem not_isInterruptible_furnish {purpose : Purpose} (h : Script.furnish i purpose acts p) :
    p.isInterruptible = false := by
  cases purpose with
  | bare | root =>
    obtain ⟨-, rfl⟩ := h
    rfl
  | child plan =>
    rcases Script.cases_furnish_child h with ⟨source, -, -, rfl⟩ | ⟨-, h⟩
    · rfl
    · exact not_isInterruptible_abandonFork h

theorem rounds_of_resume {task : Task} {reply : task.suspension.call.Answer}
    (h : Script.resume clock task.suspension reply acts p) (hp : p.isInterruptible = true) :
    (answer task reply clock).Rounds := by
  have hne : p.isInterruptible ≠ false := by simp [hp]
  obtain ⟨caller, s⟩ := task
  cases s with
  | allocating i purpose =>
    cases reply with
    | some stack =>
      obtain ⟨rest, -, h⟩ := h
      exact absurd (not_isInterruptible_furnish h) hne
    | none =>
      obtain ⟨-, rfl⟩ := h
      cases hp
  | mapping =>
    cases reply with
    | some space =>
      obtain ⟨pid, -, rfl⟩ := h
      cases hp
    | none => exact h.elim
  | copying =>
    cases reply with
    | some space => exact absurd (not_isInterruptible_duplicateFiles h) hne
    | none => exact absurd (not_isInterruptible_abandonFork h) hne
  | duplicating => exact absurd (not_isInterruptible_duplicateFiles h) hne
  | duplicatingCwd =>
    obtain ⟨pid, -, rfl⟩ := h
    cases hp
  | closing cpu => exact .close cpu rfl
  | switching cpu resumption =>
    cases resumption with
    | wait => exact .scan reply rfl
    | sleepFor first ticks => exact .nap reply first ticks rfl
    | exit | proceed =>
      obtain ⟨-, rfl⟩ := h
      cases hp
    | terminate => exact h.elim
  | freeingStack reaper pid stack space =>
    cases space <;>
    · obtain ⟨-, rfl⟩ := h
      cases hp
  | enabling cpu forever =>
    rcases h with ⟨handoff, -, rfl⟩ | ⟨-, rfl⟩
    · cases hp
    · cases forever <;> cases hp
  | running cpu handoff forever =>
    obtain ⟨-, rfl⟩ := h
    cases forever <;> cases hp
  | undoing | freeingSpace | idling =>
    obtain ⟨-, rfl⟩ := h
    cases hp

/-- Whoever switches away in a wait or a timed sleep does so in a round of it, or exits. -/
theorem rounds_of_script (h : e.script acts p) (hp : p.isInterruptible = true) : e.Rounds := by
  cases e with
  | start => exact rounds_of_start h hp
  | answer => exact rounds_of_resume h hp

/-- An event makes nobody leave its CPU, or that and nothing else. -/
theorem Course.leaves_or (h : e.Course acts p) : (∀ a ∈ acts, a.leaves? = none) ∨
    ∃ a cpu i, acts = [a] ∧ a.leaves? = some (cpu, i) ∧ e.cpu? = some cpu ∧
      p.isSwitched = true := by
  have hneutral : ∀ a : Act, a.isNeutral = true → a.leaves? = none := by
    intro a ha
    cases a <;> first | rfl | cases ha
  cases h with
  | neutral hacts => exact .inl fun a ha => hneutral a (hacts a ha)
  | fork _ hrest =>
    exact .inl (List.forall_mem_cons.2 ⟨rfl, fun a ha => hneutral a (hrest a ha)⟩)
  | launch | surrender | exit | close | retire | reap | dispatch | reclaim =>
    exact .inl (by simp [Act.leaves?])
  | leave hcpu hleaves hswitched => exact .inr ⟨_, _, _, rfl, hleaves, hcpu, hswitched⟩

end Event

/-! ### Falling asleep -/

namespace Table

variable {P : Params} {t t' : Table P} {p : Progress} {i : Slot} {cpu : Cpu} {now first ticks : Nat}

/-- Whoever has been put to sleep sleeps on its channel. -/
theorem Orderly.sleepsOn_of_park {c : Channel} (h : t.Orderly) (hi : t.occupant? cpu = some i)
    (hpark : t.park cpu c now = .ok t') : (t'.record i).sleepsOn c = true := by
  obtain ⟨-, j, hj, -, hview⟩ := h.yields_park.of_ok hpark
  cases hi.symm.trans hj
  rw [← view_record, hview, View.leave_record, Function.update_self, Process.sleepsOn_iff]
  exact ⟨rfl, rfl⟩

/-- Nobody goes to sleep in a round of a wait who has been killed. -/
theorem Orderly.killed_of_waitRound (h : t.Orderly) (hround : t.waitRound cpu now = .ok (p, t'))
    (hp : p.isInterruptible = true) (hi : t.occupant? cpu = some i) :
    (t.record i).killed = false := by
  obtain ⟨result, hscan, hrest⟩ := bind_eq_ok.1 hround
  obtain ⟨me, hme, hfinds⟩ := h.yields_scan.of_ok hscan
  cases hi.symm.trans hme
  cases result with
  | noChildren =>
    cases hrest
    cases hp
  | reaped remains t₁ =>
    obtain ⟨_, -, hrest⟩ := bind_eq_ok.1 hrest
    obtain ⟨-, hcorpse⟩ := of_release hrest
    cases p with
    | returned => cases hp
    | waiting s => cases s <;> first | cases hp | cases hcorpse
  | pending => exact hfinds.2.1

/-- Nobody goes to sleep in a round of a timed sleep who has been killed. -/
theorem killed_of_sleepRound {seen : Nat}
    (hround : t.sleepRound cpu first ticks seen now = .ok (p, t'))
    (hp : p.isInterruptible = true) (hi : t.occupant? cpu = some i) :
    (t.record i).killed = false := by
  unfold sleepRound at hround
  split at hround
  · cases hround
    cases hp
  · obtain ⟨q, hq, hrest⟩ := bind_eq_ok.1 hround
    obtain ⟨j, hj, rfl⟩ := yields_current.of_ok hq
    cases hi.symm.trans hj
    split at hrest
    · cases hrest
      cases hp
    · exact Bool.eq_false_of_not_eq_true ‹_›

end Table

namespace Machine

variable {P : Params} {m m₁ : Machine P} {e : Event} {p : Progress} {i : Slot} {cpu : Cpu}
  {first ticks : Nat}

theorem stretch_of_scans (h : e.scans? = some cpu) :
    m.stretch e = m.table.waitRound cpu e.now := by
  unfold Event.scans? at h
  split at h <;> cases h <;> rfl

theorem stretch_of_naps (h : e.naps? = some (cpu, first, ticks)) :
    m.stretch e = m.table.sleepRound cpu first ticks e.clock.seen e.now := by
  unfold Event.naps? at h
  split at h <;> cases h <;> rfl

/-- Nobody switches away in a wait or a timed sleep who has been killed. -/
theorem killed_of_perform_eq_ok (h : m.table.Orderly) (hcpu : e.cpu? = some cpu)
    (hi : m.table.occupant? cpu = some i) (hp : p.isInterruptible = true)
    (hperform : m.perform e = .ok (p, m₁)) : (m.table.record i).killed = false := by
  obtain ⟨-, -, acts, -, hscript⟩ := of_perform_eq_ok h hperform
  obtain ⟨⟨p', t⟩, hstretch, hafter⟩ := bind_eq_ok.1 hperform
  cases hafter
  cases Event.rounds_of_script hscript hp with
  | scan _ hscan =>
    cases hcpu.symm.trans (Event.cpu_of_scans hscan)
    rw [stretch_of_scans hscan] at hstretch
    exact h.killed_of_waitRound hstretch hp hi
  | nap _ _ _ hnap =>
    cases hcpu.symm.trans (Event.cpu_of_naps hnap)
    rw [stretch_of_naps hnap] at hstretch
    exact Table.killed_of_sleepRound hstretch hp hi
  | close _ hcloses =>
    cases e with
    | start => cases hcloses
    | answer task =>
      obtain ⟨_, s⟩ := task
      cases s <;> first | cases hcpu | cases hcloses

/-- How a process comes to be asleep in an event: it has slept before, on the same channel, or
leaves its CPU. -/
theorem asleep_of_perform_eq_ok (h : m.table.Orderly) (hperform : m.perform e = .ok (p, m₁))
    (hi : (m₁.table.record i).stage = .sleeping) :
    (m₁.table.record i).killed = (m.table.record i).killed ∧
      ((m.table.record i).stage = .sleeping ∧
          (m₁.table.record i).channel = (m.table.record i).channel ∨
        ∃ cpu, e.cpu? = some cpu ∧ m.table.occupant? cpu = some i) := by
  obtain ⟨-, -, acts, hfollows, hscript⟩ := of_perform_eq_ok h hperform
  rcases (Event.course_of_script hscript).leaves_or with hnone | ⟨a, cpu, j, rfl, hj, hcpu, -⟩
  · have hkept := hfollows.preserves (I := fun v => (v.record i).stage = .sleeping →
      (v.record i).killed = (m.table.record i).killed ∧ (m.table.record i).stage = .sleeping ∧
        (v.record i).channel = (m.table.record i).channel)
      (fun hs => ⟨rfl, hs, rfl⟩) fun v a ha he hv hs => by
        obtain ⟨hkilled, hbefore⟩ := Act.asleep_apply he hs
        rcases hbefore with ⟨hbefore, hchannel, -⟩ | ⟨cpu, hleaves⟩
        · obtain ⟨hkilled', hbefore', hchannel'⟩ := hv hbefore
          exact ⟨hkilled.trans hkilled', hbefore', hchannel.trans hchannel'⟩
        · cases (hnone a ha).symm.trans hleaves
    obtain ⟨hkilled, hbefore⟩ := hkept hi
    exact ⟨hkilled, .inl hbefore⟩
  · obtain ⟨he, hview⟩ := hfollows
    rw [← Table.view_record, hview] at hi ⊢
    obtain ⟨hkilled, hbefore⟩ := Act.asleep_apply he hi
    refine ⟨hkilled, hbefore.imp (fun ⟨hs, hchannel, _⟩ => ⟨hs, hchannel⟩) ?_⟩
    rintro ⟨cpu', hleaves⟩
    cases hj.symm.trans hleaves
    refine ⟨cpu, hcpu, ?_⟩
    cases a <;> cases hj <;> exact he.1

/-! ### Nobody sleeps on after a kill -/

/-- Nothing new is begun for a process that is in the middle of something. -/
def OneAtATime (m : Machine P) (e : Event) : Prop :=
  ∀ request clock, e = .start request clock → ∀ task ∈ m.tasks, task.caller = m.caller e →
    task.caller = none

/-- The process in a slot sleeps in a wait or a timed sleep. -/
def Blocks (m : Machine P) (i : Slot) : Prop :=
  (m.table.record i).stage = .sleeping ∧ ∃ task ∈ m.tasks,
    task.caller = some (m.table.record i).pid ∧ task.suspension.isInterruptible = true

/-- At most one request of every process waits, and nobody sleeps in a wait or a timed sleep who has
been killed. -/
structure Alert (m : Machine P) : Prop where
  nodup : (m.tasks.filterMap Task.caller).Nodup
  unkilled : ∀ i, m.Blocks i → (m.table.record i).killed = false

/-- The process of an event has no other request that waits. -/
theorem Alert.not_mem_others {pid : Pid} (h : m.Alert) (hone : m.OneAtATime e)
    (hcan : m.CanHappen e) (hcaller : m.caller e = some pid) :
    pid ∉ (m.others e).filterMap Task.caller := by
  intro hmem
  obtain ⟨task, htask, hpid⟩ := List.mem_filterMap.1 hmem
  cases e with
  | start request clock =>
    cases (hone request clock rfl task htask (hpid.trans hcaller.symm)).symm.trans hpid
  | answer mine reply clock =>
    have hperm := (List.perm_cons_erase hcan).filterMap Task.caller
    have hmine : mine.caller = some pid := hcaller
    have hnodup := hperm.nodup_iff.1 h.nodup
    rw [List.filterMap_cons_some hmine] at hnodup
    exact (List.nodup_cons.1 hnodup).1 hmem

theorem Alert.nodup_after {t : Table P} (h : m.Alert) (hone : m.OneAtATime e)
    (hcan : m.CanHappen e) : ((m.after e p t).tasks.filterMap Task.caller).Nodup := by
  have hothers : ((m.others e).filterMap Task.caller).Nodup := by
    cases e with
    | start => exact h.nodup
    | answer task => exact h.nodup.sublist (List.erase_sublist.filterMap _)
  rw [tasks_after]
  cases p with
  | returned => exact hothers
  | waiting s =>
    change ((⟨m.caller e, s⟩ :: m.others e).filterMap Task.caller).Nodup
    cases hcaller : m.caller e with
    | none => exact hothers
    | some pid => exact List.nodup_cons.2 ⟨h.not_mem_others hone hcan hcaller, hothers⟩

/-- Whoever switches away in a wait or a timed sleep is at work. -/
theorem works_of_isInterruptible (h : m.Attended) (hd : m.Disciplined e) (hcan : m.CanHappen e)
    {acts : List Act} (hscript : e.script acts p) (hp : p.isInterruptible = true) :
    ∃ cpu i, m.table.view.Works cpu i (m.caller e) := by
  cases Event.rounds_of_script hscript hp with
  | scan _ hscan => exact ⟨_, hd.works _ (Event.cpu_of_scans hscan)⟩
  | nap _ _ _ hnap => exact ⟨_, hd.works _ (Event.cpu_of_naps hnap)⟩
  | close _ hcloses =>
    cases e with
    | start => cases hcloses
    | answer task =>
      obtain ⟨i, hw, -⟩ := h.closing task hcan _ hcloses
      exact ⟨_, i, hw⟩

/-- **How a process comes to sleep in a wait or a timed sleep**, in a disciplined event: it has
slept in it before, on the same channel, or it leaves its CPU in a round of it. -/
theorem Alert.blocks_of_perform {task : Task} (h : m.Alert) (hm : m.Regular)
    (hn : m.table.view.Numbered) (hd : m.Disciplined e) (hone : m.OneAtATime e)
    (hcan : m.CanHappen e) (hperform : m.perform e = .ok (p, m₁))
    (hi : (m₁.table.record i).stage = .sleeping) (htask : task ∈ m₁.tasks)
    (hcaller : task.caller = some (m₁.table.record i).pid)
    (hinterruptible : task.suspension.isInterruptible = true) :
    (m₁.table.record i).killed = (m.table.record i).killed ∧
      ((m.table.record i).stage = .sleeping ∧
          (m₁.table.record i).channel = (m.table.record i).channel ∧ task ∈ m.tasks ∧
          task.caller = some (m.table.record i).pid ∨
        p = .waiting task.suspension ∧ ∃ cpu, e.cpu? = some cpu ∧
          m.table.occupant? cpu = some i) := by
  obtain ⟨-, hafter, acts, -, hscript⟩ := Machine.of_perform_eq_ok hm.orderly hperform
  have htasks : m₁.tasks = (m.after e p m₁.table).tasks := congrArg Machine.tasks hafter
  obtain ⟨hkilled, hbefore⟩ := asleep_of_perform_eq_ok hm.orderly hperform hi
  refine ⟨hkilled, ?_⟩
  -- the slot has not just been allocated
  obtain ⟨hused, hpid⟩ : (m.table.record i).stage ≠ .unused ∧
      (m₁.table.record i).pid = (m.table.record i).pid := by
    refine (kept_or_allocated hm.orderly hperform (hi ▸ nofun)).resolve_right ?_
    rintro ⟨-, hsteady⟩
    have hphase := hsteady.phase
    rw [hi] at hphase
    cases hphase
  rw [hpid] at hcaller
  have hsame : ∀ {cpu j}, m.table.view.Works cpu j (some (m.table.record i).pid) → j = i :=
    fun hw => (hn.pid_inj i _ hused (Option.some.inj hw.pid_eq)).symm
  rw [htasks] at htask
  rcases hbefore with ⟨hbefore, hchannel⟩ | ⟨cpu, hcpu, hoccupant⟩
  · rcases mem_tasks_after htask with htask | ⟨s, rfl, rfl⟩
    · exact .inl ⟨hbefore, hchannel, mem_of_mem_others htask, hcaller⟩
    · -- whoever switches away is running, not asleep
      obtain ⟨cpu, j, hw⟩ := works_of_isInterruptible hm.attended hd hcan hscript hinterruptible
      rw [show m.caller e = _ from hcaller] at hw
      cases hsame hw
      cases hw.running.symm.trans hbefore
  · obtain ⟨j, hw⟩ := hd.works cpu hcpu
    cases hw.marker.symm.trans hoccupant
    rcases mem_tasks_after htask with htask | ⟨s, rfl, rfl⟩
    · exact absurd (List.mem_filterMap.2 ⟨task, htask, hcaller⟩)
        (h.not_mem_others hone hcan hw.pid_eq)
    · exact .inr ⟨rfl, cpu, hcpu, hoccupant⟩

/-- **Nobody sleeps in a wait or a timed sleep who has been killed**, after a disciplined event. -/
theorem Alert.of_perform_eq_ok (h : m.Alert) (hm : m.Regular) (hn : m.table.view.Numbered)
    (hd : m.Disciplined e) (hone : m.OneAtATime e) (hcan : m.CanHappen e)
    (hperform : m.perform e = .ok (p, m₁)) : m₁.Alert := by
  obtain ⟨-, hafter, -⟩ := Machine.of_perform_eq_ok hm.orderly hperform
  have htasks : m₁.tasks = (m.after e p m₁.table).tasks := congrArg Machine.tasks hafter
  refine ⟨htasks ▸ h.nodup_after hone hcan, ?_⟩
  rintro i ⟨hi, task, htask, hcaller, hinterruptible⟩
  obtain ⟨hkilled, hbefore⟩ :=
    h.blocks_of_perform hm hn hd hone hcan hperform hi htask hcaller hinterruptible
  rw [hkilled]
  rcases hbefore with ⟨hbefore, -, htask, hcaller⟩ | ⟨rfl, cpu, hcpu, hoccupant⟩
  · exact h.unkilled i ⟨hbefore, task, htask, hcaller, hinterruptible⟩
  · exact killed_of_perform_eq_ok (p := .waiting task.suspension) hm.orderly hcpu hoccupant
      hinterruptible hperform

theorem Alert.of_grants {files : Multiset FileHandle} {t : Table P} (h : m.Alert)
    (hm : m.table.Orderly) (hgrants : m.Grants i files t) : Alert { m with table := t } := by
  have hrecord : ∀ j, (t.record j).pid = (m.table.record j).pid ∧
      (t.record j).stage = (m.table.record j).stage ∧
      (t.record j).killed = (m.table.record j).killed := by
    intro j
    obtain ⟨files', cwd, hj⟩ := hgrants.exists_equip hm j
    rw [hj]
    exact ⟨rfl, rfl, rfl⟩
  refine ⟨h.nodup, fun j hj => ?_⟩
  obtain ⟨hpid, hstage, hkilled⟩ := hrecord j
  rw [hkilled]
  refine h.unkilled j ?_
  rwa [Blocks, hpid, hstage] at hj

theorem History.alert {steps : List (Step P)} (h : m.History steps m₁) (hk : m.Kept)
    (hn : m.table.view.Numbered) (hm : m.Alert)
    (hdisciplined : ∀ s ∈ steps, s.before.Disciplined s.event)
    (hone : ∀ s ∈ steps, s.before.OneAtATime s.event) : m₁.Alert := by
  induction h with
  | nil => exact hm
  | event hrun hcan hperform ih =>
    obtain ⟨hpast, hlast⟩ := List.forall_mem_append.1 hdisciplined
    obtain ⟨hpast', hlast'⟩ := List.forall_mem_append.1 hone
    exact (ih hpast hpast').of_perform_eq_ok (hrun.kept hk hpast).regular
      (hrun.numbered hk.regular.orderly hn) (hlast _ List.mem_cons_self)
      (hlast' _ List.mem_cons_self) hcan hperform
  | grant hrun hgrants ih =>
    exact (ih hdisciplined hone).of_grants (hrun.orderly hk.regular.orderly) hgrants

end Machine

/-! ### After a kill -/

namespace View

variable {P : Params} {v : View} {a : Act} {i : Slot} {pid : Pid}

/-- A pid has been given out, and whoever has it has been killed. -/
structure Doomed (v : View) (pid : Pid) : Prop where
  ne_nobody : pid ≠ nobody
  lt : pid < v.nextPid
  killed : ∀ i, (v.record i).pid = pid → (v.record i).killed = true

theorem kill_killed : ((v.kill i).record i).killed = true := by
  have hkill : ((v.revise i fun p => { p with killed := true }).record i).killed = true := by
    rw [revise_record, Function.update_self]
  unfold kill
  dsimp only
  split
  · rw [shift_record, Function.update_self]
    exact hkill
  · exact hkill

theorem kill_nextPid : (v.kill i).nextPid = v.nextPid := by
  unfold kill
  dsimp only
  split <;> rfl

/-- A kill dooms the pid of its process. -/
theorem Numbered.doomed_kill (h : v.Numbered) (hi : (v.record i).stage ≠ .unused) :
    (v.kill i).Doomed (v.record i).pid where
  ne_nobody := mt (h.pid_eq_nobody_iff i).1 hi
  lt := by
    rw [kill_nextPid]
    exact h.pid_lt i
  killed j hj := by
    have hpid := (calm_kill (v := v) (i := i)).2 j |>.pid
    obtain rfl := h.pid_inj i j hi (hj.symm.trans hpid)
    exact kill_killed

/-- A kill is not forgotten, and the pid is not given to another process. -/
theorem Doomed.apply (h : v.Doomed pid) (hn : v.Numbered) (he : a.Enabled v) :
    (a.apply P v).Doomed pid where
  ne_nobody := h.ne_nobody
  lt := Nat.lt_of_lt_of_le h.lt Act.nextPid_le_apply
  killed i hi := by
    cases Act.renames_apply (P := P) (i := i) he with
    | keeps hpid hstage =>
      have hbefore := hpid.symm.trans hi
      have hused : (v.record i).stage ≠ .unused := by
        rw [ne_eq, ← hn.pid_eq_nobody_iff, hbefore]
        exact h.ne_nobody
      exact (Act.livesOn_apply he hused (mt hstage.1 hused)).killed (h.killed i hbefore)
    | gives hpid => exact absurd (hpid.symm.trans hi) (Nat.ne_of_gt h.lt)
    | takes hpid => exact absurd (hi.symm.trans hpid) h.ne_nobody

end View

/-- A request ends in an outcome after a number of further answers at most, whatever these are and
whatever has become of the table, which it leaves alone. -/
def Progress.EndsIn (P : Params) (outcome : Outcome) : Nat → Progress → Prop
  | 0, p => p = .returned outcome
  | n + 1, p => p = .returned outcome ∨ ∃ s, p = .waiting s ∧
      ∀ (t : Table P) (answer : s.call.Answer) (clock : Clock),
        ∃ p', s.resume clock t answer = .ok (p', t) ∧ p'.EndsIn P outcome n

namespace Table

variable {P : Params} {t : Table P} {i : Slot} {cpu : Cpu} {now : Nat}

/-- What is left of a reaped child is freed in two calls at most. -/
theorem endsIn_release (reaper : Reaper) (remains : Remains) : ∃ p,
    t.release reaper remains = .ok (p, t) ∧ p.EndsIn P (reaper.outcome remains.pid) 2 := by
  have hspace : ∀ (u : Table P) space, ∃ p, u.releaseSpace reaper remains.pid space = .ok (p, u) ∧
      p.EndsIn P (reaper.outcome remains.pid) 1 := by
    intro u space
    cases space with
    | none => exact ⟨_, rfl, .inl rfl⟩
    | some space => exact ⟨_, rfl, .inr ⟨_, rfl, fun _ _ _ => ⟨_, rfl, rfl⟩⟩⟩
  unfold release
  cases remains.stack with
  | some stack => exact ⟨_, rfl, .inr ⟨_, rfl, fun u _ _ => hspace u remains.space⟩⟩
  | none =>
    cases hremains : remains.space with
    | none => exact ⟨_, rfl, .inl rfl⟩
    | some space =>
      exact ⟨_, rfl, .inr ⟨_, rfl, fun _ _ _ => ⟨_, rfl, .inl rfl⟩⟩⟩

/-- A round of a wait of a process that has been killed is its last. -/
theorem Orderly.last_waitRound (h : t.Orderly) (hi : t.occupant? cpu = some i)
    (hkilled : (t.record i).killed = true) : ∃ p t', t.waitRound cpu now = .ok (p, t') ∧
      ((∃ j, t.view.Reapable i j ∧ p.EndsIn P (.waited (.ok (t.record j).pid) cpu) 2) ∨
        (∀ j, ¬ t.view.Reapable i j) ∧ p = .returned (.waited (.error .noChildren) cpu)) := by
  obtain ⟨result, hscan, me, hme, hfinds⟩ := h.yields_scan.exists_ok ⟨i, hi⟩
  cases hi.symm.trans hme
  unfold waitRound
  rw [hscan]
  cases result with
  | noChildren => exact ⟨_, _, rfl, .inr ⟨hfinds.2, rfl⟩⟩
  | reaped remains t₁ =>
    obtain ⟨h₁, j, hreapable, -, -, rfl⟩ := hfinds
    obtain ⟨p, hrelease, hends⟩ := endsIn_release (t := t₁) (.wait cpu)
      ⟨(t.record j).pid, (t.record j).stack, (t.record j).space⟩
    refine ⟨p, t₁, ?_, .inl ⟨j, hreapable, hends⟩⟩
    change (do let t₂ ← t₁.settle; t₂.release (.wait cpu) _) = _
    exact bind_eq_ok.2 ⟨t₁, h₁.settle_eq, hrelease⟩
  | pending => cases hfinds.2.1.symm.trans hkilled

/-- A round of a timed sleep of a process that has been killed is its last. -/
theorem Sound.last_sleepRound (first ticks seen now : Nat) (h : t.Sound)
    (hi : t.occupant? cpu = some i) (hkilled : (t.record i).killed = true) :
    t.sleepRound cpu first ticks seen now = .ok
      (.returned (.slept (if ticks ≤ seen - first then .ok () else .error .killed) cpu), t) := by
  unfold sleepRound
  split
  · rfl
  · obtain ⟨p, hcurrent, j, hj, rfl⟩ := yields_current.exists_ok
      ⟨i, hi, h.valid.marker_lt cpu i hi⟩
    cases hi.symm.trans hj
    rw [hcurrent]
    refine bind_eq_ok.2 ⟨_, rfl, ?_⟩
    rw [if_pos hkilled]
    rfl

end Table

namespace Machine

variable {P : Params} {m m₁ : Machine P} {e : Event} {p : Progress} {steps : List (Step P)}
  {s : Step P} {i : Slot} {cpu : Cpu} {pid : Pid}

/-- The pid of the process that a step has killed. -/
def Step.kills? (s : Step P) : Option Pid :=
  match s.event, s.result with
  | .start (.kill pid) _, .returned (.answered (.ok ())) => some pid
  | _, _ => none

/-- The waits and the timed sleeps of a process end in their next round.  A wait answers with a
child exactly if there is one to reap, after its remains have been freed; a timed sleep succeeds
exactly if its time is up. -/
structure Heeds (m : Machine P) (pid : Pid) : Prop where
  wait : ∀ e cpu, m.Disciplined e → m.caller e = some pid → e.scans? = some cpu →
    ∃ me p m₁, m.table.occupant? cpu = some me ∧ m.perform e = .ok (p, m₁) ∧
      ((∃ i, m.table.view.Reapable me i ∧
          p.EndsIn P (.waited (.ok (m.table.record i).pid) cpu) 2) ∨
        (∀ i, ¬ m.table.view.Reapable me i) ∧ p = .returned (.waited (.error .noChildren) cpu))
  sleep : ∀ e cpu first ticks, m.Disciplined e → m.caller e = some pid →
    e.naps? = some (cpu, first, ticks) → ∃ m₁, m.perform e = .ok (.returned (.slept
      (if ticks ≤ e.clock.seen - first then .ok () else .error .killed) cpu), m₁)

theorem heeds_of_doomed (h : m.table.Orderly) (hdoomed : m.table.view.Doomed pid) :
    m.Heeds pid where
  wait e cpu hd hcaller hscan := by
    obtain ⟨i, hw⟩ := hd.works cpu (Event.cpu_of_scans hscan)
    have hpid : (m.table.record i).pid = pid := Option.some.inj (hw.pid_eq.symm.trans hcaller)
    obtain ⟨p, t, hround, hends⟩ := h.last_waitRound hw.marker (hdoomed.killed i hpid)
    refine ⟨i, p, m.after e p t, hw.marker, ?_, hends⟩
    exact bind_eq_ok.2 ⟨(p, t), (stretch_of_scans hscan).trans hround, rfl⟩
  sleep e cpu first ticks hd hcaller hnap := by
    obtain ⟨i, hw⟩ := hd.works cpu (Event.cpu_of_naps hnap)
    have hpid : (m.table.record i).pid = pid := Option.some.inj (hw.pid_eq.symm.trans hcaller)
    have hround := h.sound.last_sleepRound first ticks e.clock.seen e.now hw.marker
      (hdoomed.killed i hpid)
    exact ⟨_, bind_eq_ok.2 ⟨_, (stretch_of_naps hnap).trans hround, rfl⟩⟩

/-- A step that has killed a process has doomed its pid. -/
theorem doomed_of_kills (h : m.table.Orderly) (hn : m.table.view.Numbered)
    (hperform : m.perform e = .ok (p, m₁)) (hkills : Step.kills? ⟨m, e, p⟩ = some pid) :
    m₁.table.view.Doomed pid := by
  unfold Step.kills? at hkills
  split at hkills
  · obtain rfl := Option.some.inj hkills
    rename_i pid clock he hp
    dsimp only at he hp
    subst he hp
    obtain ⟨⟨q, t⟩, hstretch, hafter⟩ := bind_eq_ok.1 hperform
    obtain ⟨result, hresult, hend⟩ := bind_eq_ok.1 hstretch
    have hyields := h.yields_kill.of_ok hresult
    cases hafter
    cases result with
    | error why => cases hend
    | ok t' =>
      obtain ⟨-, i, rfl, hi, hview⟩ := hyields
      cases hend
      exact hview ▸ hn.doomed_kill hi
  · cases hkills

/-- What has been doomed stays so. -/
theorem History.doomed (h : m.History steps m₁) (hm : m.table.Orderly)
    (hn : m.table.view.Numbered) (hdoomed : m.table.view.Doomed pid) :
    m₁.table.view.Doomed pid := by
  induction h with
  | nil => exact hdoomed
  | event hrun _ hperform ih =>
    obtain ⟨-, -, acts, hfollows, -⟩ := of_perform_eq_ok (hrun.orderly hm) hperform
    refine (hfollows.preserves (I := fun v => v.Numbered ∧ v.Doomed pid)
      ⟨hrun.numbered hm hn, ih⟩ fun v a _ he ⟨hv, hd⟩ => ?_).2
    exact ⟨Act.numbered_apply hv he, hd.apply hv he⟩
  | grant hrun hgrants ih =>
    obtain ⟨-, files', cwd, hview, -⟩ := hgrants.exists_view (hrun.orderly hm)
    refine ⟨ih.ne_nobody, ?_, fun i hi => ?_⟩
    · rw [hview]
      exact ih.lt
    · have hcalm : View.Calm _ _ := hview ▸ View.calm_equip
      exact (hcalm.2 i).killed (ih.killed i ((hcalm.2 i).pid.symm.trans hi))

theorem oneAtATime_of_caller (h : m.caller e = none) : m.OneAtATime e :=
  fun _ _ _ _ _ hcaller => hcaller.trans h

theorem alert_of_tasks (h : m.tasks = []) : m.Alert := by
  refine ⟨h ▸ List.nodup_nil, ?_⟩
  rintro i ⟨-, task, htask, -⟩
  exact absurd (h ▸ htask) List.not_mem_nil

/-- **No kill is lost.**  In a disciplined run in which every process does one thing at a time,
nobody who has been killed sleeps in a wait or a timed sleep.  And once a process has been killed,
wherever the kill has found it, its waits and timed sleeps end in their next round. -/
theorem heeded_of_history {t : Table P} {now : Nat} (hcreate : Table.create P now = .ok (.ok t))
    (hrun : History { table := t } steps m)
    (hdisciplined : ∀ s ∈ steps, s.before.Disciplined s.event)
    (hone : ∀ s ∈ steps, s.before.OneAtATime s.event) :
    (∀ i, m.Blocks i → (m.table.record i).killed = false) ∧
      ∀ s ∈ steps, ∀ pid, s.kills? = some pid → m.Heeds pid := by
  have hk := kept_of_create hcreate
  obtain ⟨ht, hview⟩ := Table.orderly_of_create hcreate
  have hn : t.view.Numbered := hview ▸ numbered_fresh
  refine ⟨(hrun.alert hk hn (alert_of_tasks rfl) hdisciplined hone).unkilled, ?_⟩
  rintro s hs pid hkills
  obtain ⟨earlier, later, rfl⟩ := List.append_of_mem hs
  obtain ⟨hpast, hcan, m₂, hperform, hlater⟩ := hrun.split
  have h₂ := hpast.event hcan hperform
  have hdoomed := doomed_of_kills (hpast.orderly ht) (hpast.numbered ht hn) hperform hkills
  exact heeds_of_doomed (hrun.orderly ht)
    (hlater.doomed (h₂.orderly ht) (h₂.numbered ht hn) hdoomed)

/-- The root process is killed while it switches away in a timed sleep.  It is dispatched once more,
and the sleep ends there. -/
theorem heeded_of_switching : ∃ (t : Table ⟨1, 0, 1, 1, 1, true⟩) (steps : List (Step _))
    (m : Machine _), Table.create _ 0 = .ok (.ok t) ∧ History { table := t } steps m ∧
      (∃ s ∈ steps, s.kills? = some 1) ∧ (∀ i, m.Blocks i → (m.table.record i).killed = false) ∧
      ∃ m₁, m.perform (.answer ⟨some 1, .switching 0 (.sleepFor 0 5)⟩ 0 0) =
        .ok (.returned (.slept (.error .killed) 0), m₁) := by
  obtain ⟨t, hcreate, hleads⟩ : ∃ t : Table ⟨1, 0, 1, 1, 1, true⟩,
      Table.create _ 0 = .ok (.ok t) ∧ Leads (fun m e => m.Disciplined e ∧ m.OneAtATime e)
        (fun m => ∃ m', m.perform (.start (.kill 1) 0) = .ok (.returned (.answered (.ok ())), m') ∧
          Leads (fun m e => m.Disciplined e ∧ m.OneAtATime e)
            (fun m => m.Disciplined (.answer ⟨some 1, .switching 0 (.sleepFor 0 5)⟩ 0 0))
            [.start (.reclaim 0 ⟨0, 1⟩) 0, .start (.dispatch 0) 0] m')
        [.start (.boot "" []) 0, .answer ⟨none, .allocating 0 (.root "" [])⟩ (some ⟨0⟩) 0,
          .answer ⟨none, .mapping 0 "" []⟩ (some ⟨0⟩) 0, .start (.dispatch 0) 0,
          .start (.sleepFor 0 5) 0] { table := t } := by
    have hnone {m : Machine ⟨1, 0, 1, 1, 1, true⟩} {e : Event} (hcpu : e.cpu? = none)
        (hback : e.givesBack = none) (hcaller : m.caller e = none) :
        m.Disciplined e ∧ m.OneAtATime e :=
      ⟨(considerate_of_none hcpu hback).disciplined, oneAtATime_of_caller hcaller⟩
    refine ⟨_, rfl, trivial, hnone rfl rfl rfl, _, _, rfl, ?_⟩
    refine ⟨List.mem_cons_self, hnone rfl rfl rfl, _, _, rfl, ?_⟩
    refine ⟨List.mem_cons_self, hnone rfl rfl rfl, _, _, rfl, ?_⟩
    refine ⟨trivial, hnone rfl rfl rfl, _, _, rfl, ?_⟩
    refine ⟨trivial, ⟨disciplined_of_works (i := 0) rfl rfl ⟨rfl, rfl, rfl⟩ nofun,
      fun _ _ _ => nofun⟩, _, _, rfl, ?_⟩
    -- the kill comes before the process has left its CPU
    refine ⟨_, rfl, trivial, ⟨disciplined_of_reclaim rfl rfl List.mem_cons_self (by decide),
      oneAtATime_of_caller rfl⟩, _, _, rfl, ?_⟩
    refine ⟨trivial, hnone rfl rfl rfl, _, _, rfl, ?_⟩
    exact disciplined_of_works (i := 0) rfl rfl ⟨rfl, rfl, rfl⟩ (by decide)
  obtain ⟨past, m, hpast, -, hbefore, m', hkill, hleads'⟩ := hleads.exists_history
  obtain ⟨later, m₂, hlater, -, hafter, hd⟩ := hleads'.exists_history
  have hrun := (hpast.event (e := .start (.kill 1) 0) trivial hkill).trans hlater
  have hone : m.Disciplined (.start (.kill 1) 0) ∧ m.OneAtATime (.start (.kill 1) 0) :=
    ⟨(considerate_of_none rfl rfl).disciplined, oneAtATime_of_caller rfl⟩
  have hsteps : ∀ s ∈ past ++ [⟨m, .start (.kill 1) 0, .returned (.answered (.ok ()))⟩] ++ later,
      s.before.Disciplined s.event ∧ s.before.OneAtATime s.event := by
    refine List.forall_mem_append.2 ⟨List.forall_mem_append.2 ⟨hbefore, ?_⟩, hafter⟩
    exact List.forall_mem_singleton.2 hone
  have hs := List.mem_append_left later (List.mem_append_right past (List.mem_singleton_self
    (⟨m, .start (.kill 1) 0, .returned (.answered (.ok ()))⟩ : Step _)))
  obtain ⟨halert, hheeds⟩ := heeded_of_history hcreate hrun (fun s hs => (hsteps s hs).1)
    fun s hs => (hsteps s hs).2
  exact ⟨t, _, m₂, hcreate, hrun, ⟨_, hs, rfl⟩, halert,
    (hheeds _ hs 1 rfl).sleep _ 0 0 5 hd rfl rfl⟩

end Machine

end FeedbackQueue
