import FeedbackQueue.Proofs.Deeds

/-!
# Errands

Two errands of a request go through several calls: the root process is made, from the request for it
to its start, and the remains of a reaped child are freed.  An event goes on with the errand of the
request that it answers; a new errand is begun by a request for the root process, or by one that
looks for an exited child.

## Main definitions

* `Suspension.boots` : the root process is being made.
* `Outcome.reaped?`, `Suspension.corpse?` : the pid of a reaped child, at the end of a request and
  on the way there.
* `Progress.Bare` : a request is on neither errand.

## Main statements

* `Event.errands_of_start`, `Event.errands_of_resume` : where errands begin, and how they go on.
-/

namespace FeedbackQueue

/-- Whether the root process is being made. -/
def Suspension.boots : Suspension → Bool
  | .allocating _ (.root _ _) | .mapping _ _ _ => true
  | _ => false

/-- Whether a request goes on to make the root process. -/
def Progress.boots : Progress → Bool
  | .returned _ => false
  | .waiting s => s.boots

/-- Whether an event asks for the root process. -/
def Event.isBoot : Event → Bool
  | .start (.boot _ _) _ => true
  | _ => false

/-- Whether an event asks for the root process, or goes on to make it. -/
def Event.boots : Event → Bool
  | .answer task _ _ => task.suspension.boots
  | e => e.isBoot

/-- The pid that a request ends with if it has reaped a child. -/
def Outcome.reaped? : Outcome → Option Pid
  | .waited (.ok pid) _ | .polled (.ok (some pid)) => some pid
  | _ => none

/-- The reaped child whose remains are freed. -/
def Suspension.corpse? : Suspension → Option Pid
  | .freeingStack _ pid _ _ | .freeingSpace _ pid _ => some pid
  | _ => none

/-- The reaped child of a request that goes on or has ended. -/
def Progress.corpse? : Progress → Option Pid
  | .returned outcome => outcome.reaped?
  | .waiting s => s.corpse?

/-- The reaped child of the request that an event goes on with. -/
def Event.corpse? : Event → Option Pid
  | .start _ _ => none
  | .answer task _ _ => task.suspension.corpse?

/-- The reaped child of a request that waits. -/
def Task.corpse? (task : Task) : Option Pid := task.suspension.corpse?

/-- A request neither goes on to make the root process nor has reaped a child. -/
def Progress.Bare (p : Progress) : Prop := p.boots = false ∧ p.corpse? = none

@[simp] theorem Reaper.reaped_outcome {reaper : Reaper} {pid : Pid} :
    (reaper.outcome pid).reaped? = some pid := by
  cases reaper <;> rfl

namespace Event

variable {now : Nat} {clock : Clock} {acts : List Act} {p : Progress} {cpu : Cpu} {i : Slot}
  {plan : Blueprint}

/-! ### Parts of scripts -/

theorem errands_allocateFor {purpose : Purpose} (h : Script.allocateFor purpose now acts p) :
    p.corpse? = none ∧ (p.boots = true → ∃ name image, purpose = .root name image) := by
  rcases h with ⟨-, rfl⟩ | ⟨i, -, rfl⟩
  · exact ⟨by cases purpose <;> rfl, nofun⟩
  · refine ⟨rfl, fun hboots => ?_⟩
    cases purpose with
    | root name image => exact ⟨name, image, rfl⟩
    | bare | child => cases hboots

theorem bare_abandonFork (h : Script.abandonFork i acts p) : p.Bare := by
  rcases h with ⟨stack, -, rfl⟩ | ⟨-, rfl⟩ <;> exact ⟨rfl, rfl⟩

theorem bare_finishFork {space : AddressSpace} {files : List FileHandle} {cwd : Option FileHandle}
    (h : Script.finishFork i plan space files cwd acts p) : p.Bare := by
  obtain ⟨pid, -, rfl⟩ := h
  exact ⟨rfl, rfl⟩

theorem bare_duplicateFiles {space : AddressSpace} {copies files : List FileHandle}
    (h : Script.duplicateFiles i plan space copies files acts p) : p.Bare := by
  rcases Script.cases_duplicateFiles h with ⟨file, rest, -, rfl⟩ | ⟨dir, -, rfl⟩ | h
  · exact ⟨rfl, rfl⟩
  · exact ⟨rfl, rfl⟩
  · exact bare_finishFork h

theorem errands_furnish {purpose : Purpose} (h : Script.furnish i purpose acts p) :
    p.corpse? = none ∧ (p.boots = true → (Suspension.allocating i purpose).boots = true) := by
  cases purpose with
  | bare =>
    obtain ⟨-, rfl⟩ := h
    exact ⟨rfl, nofun⟩
  | root =>
    obtain ⟨-, rfl⟩ := h
    exact ⟨rfl, id⟩
  | child plan =>
    have hbare : p.Bare := by
      rcases Script.cases_furnish_child h with ⟨source, -, -, rfl⟩ | ⟨-, h⟩
      · exact ⟨rfl, rfl⟩
      · exact bare_abandonFork h
    exact ⟨hbare.2, fun hboots => nomatch hbare.1.symm.trans hboots⟩

theorem bare_closeFiles {last : Resumption} {files : List FileHandle}
    (h : Script.closeFiles cpu last now files acts p) : p.Bare := by
  cases files with
  | cons file rest =>
    obtain ⟨-, rfl⟩ := h
    exact ⟨rfl, rfl⟩
  | nil =>
    obtain ⟨i, -, rfl⟩ := h
    exact ⟨rfl, rfl⟩

theorem bare_sleepRound {first ticks : Nat} (h : Script.sleepRound cpu first ticks now acts p) :
    p.Bare := by
  rcases h with ⟨result, -, rfl⟩ | ⟨i, -, rfl⟩ <;> exact ⟨rfl, rfl⟩

theorem errands_releaseSpace {reaper : Reaper} {pid : Pid} {space : Option AddressSpace}
    (h : Script.releaseSpace reaper pid space acts p) : p.boots = false ∧ p.corpse? = some pid := by
  cases space with
  | some space =>
    obtain ⟨-, rfl⟩ := h
    exact ⟨rfl, rfl⟩
  | none =>
    obtain ⟨-, rfl⟩ := h
    exact ⟨rfl, Reaper.reaped_outcome⟩

theorem boots_release {reaper : Reaper} {remains : Remains}
    (h : Script.release reaper remains acts p) : p.boots = false := by
  rcases Script.cases_release h with ⟨_, _, -, rfl⟩ | ⟨_, -, rfl⟩ | ⟨-, rfl⟩ <;> rfl

theorem boots_waitRound (h : Script.waitRound cpu now acts p) : p.boots = false := by
  rcases h with ⟨-, rfl⟩ | ⟨me, i, remains, rest, -, h⟩ | ⟨me, -, rfl⟩
  · rfl
  · exact boots_release h
  · rfl

/-! ### Events -/

/-- Only a request for the root process goes on to make it, and only waits and polls reap a
child. -/
theorem errands_of_start {request : Request} (h : Script.start clock request acts p) :
    ((∃ cpu, request = .wait cpu ∨ request = .poll cpu) ∧ p.boots = false) ∨
      p.corpse? = none ∧ (p.boots = true → ∃ name image, request = .boot name image) := by
  have hbare : p.Bare → p.corpse? = none ∧
      (p.boots = true → ∃ name image, request = .boot name image) := fun hp =>
    ⟨hp.2, fun hboots => nomatch hp.1.symm.trans hboots⟩
  cases request with
  | wait cpu => exact .inl ⟨⟨cpu, .inl rfl⟩, boots_waitRound h⟩
  | poll cpu =>
    refine .inl ⟨⟨cpu, .inr rfl⟩, ?_⟩
    rcases h with ⟨result, -, -, rfl⟩ | ⟨me, i, remains, rest, -, h⟩
    · rfl
    · exact boots_release h
  | allocate =>
    obtain ⟨hcorpse, hboots⟩ := errands_allocateFor h
    exact .inr ⟨hcorpse, fun hp => nomatch hboots hp⟩
  | boot name image =>
    exact .inr ⟨(errands_allocateFor h).1, fun _ => ⟨name, image, rfl⟩⟩
  | fork cpu =>
    obtain ⟨plan, rest, -, h⟩ := h
    obtain ⟨hcorpse, hboots⟩ := errands_allocateFor h
    exact .inr ⟨hcorpse, fun hp => nomatch hboots hp⟩
  | exit | terminate =>
    obtain ⟨i, files, rest, -, h⟩ := h
    exact .inr (hbare (bare_closeFiles h))
  | sleepFor => exact .inr (hbare (bare_sleepRound h))
  | sleep | yield | switch | signal =>
    obtain ⟨_, -, rfl⟩ := h
    exact .inr (hbare ⟨rfl, rfl⟩)
  | dispatch =>
    rcases h with ⟨-, rfl⟩ | ⟨handoff, -, rfl⟩
    · exact .inr (hbare ⟨rfl, rfl⟩)
    · exact .inr (hbare ⟨rfl, rfl⟩)
  | kill | setPriority | setUid | setGid =>
    rcases h with ⟨why, -, rfl⟩ | ⟨i, -, rfl⟩
    · exact .inr (hbare ⟨rfl, rfl⟩)
    · exact .inr (hbare ⟨rfl, rfl⟩)
  | pass | serve | reclaim | tick | rouse | sweep | sweepIfDue =>
    obtain ⟨-, rfl⟩ := h
    exact .inr (hbare ⟨rfl, rfl⟩)

/-- An answer lets an errand go on, or end in the start of the root process; only a wait that looks
again reaps a child. -/
theorem errands_of_resume {s : Suspension} {reply : s.call.Answer}
    (h : Script.resume clock s reply acts p) :
    ((∃ cpu, s = .switching cpu .wait) ∧ p.boots = false) ∨
      p.corpse? = s.corpse? ∧ (p.boots = true → s.boots = true) := by
  have hbare : s.corpse? = none → p.Bare → p.corpse? = s.corpse? ∧
      (p.boots = true → s.boots = true) := fun hs hp =>
    ⟨hp.2.trans hs.symm, fun hboots => nomatch hp.1.symm.trans hboots⟩
  cases s with
  | allocating i purpose =>
    cases reply with
    | some stack =>
      obtain ⟨rest, -, h⟩ := h
      exact .inr (errands_furnish h)
    | none =>
      obtain ⟨-, rfl⟩ := h
      exact .inr (hbare rfl (by cases purpose <;> exact ⟨rfl, rfl⟩))
  | mapping i name image =>
    cases reply with
    | some space =>
      obtain ⟨pid, -, rfl⟩ := h
      exact .inr (hbare rfl ⟨rfl, rfl⟩)
    | none => exact h.elim
  | copying i plan source =>
    cases reply with
    | some space => exact .inr (hbare rfl (bare_duplicateFiles h))
    | none => exact .inr (hbare rfl (bare_abandonFork h))
  | duplicating => exact .inr (hbare rfl (bare_duplicateFiles h))
  | duplicatingCwd => exact .inr (hbare rfl (bare_finishFork h))
  | closing => exact .inr (hbare rfl (bare_closeFiles h))
  | switching cpu resumption =>
    cases resumption with
    | wait => exact .inl ⟨⟨cpu, rfl⟩, boots_waitRound h⟩
    | exit | proceed =>
      obtain ⟨-, rfl⟩ := h
      exact .inr (hbare rfl ⟨rfl, rfl⟩)
    | terminate => exact h.elim
    | sleepFor => exact .inr (hbare rfl (bare_sleepRound h))
  | freeingStack =>
    obtain ⟨hboots, hcorpse⟩ := errands_releaseSpace h
    exact .inr ⟨hcorpse, fun hp => nomatch hboots.symm.trans hp⟩
  | freeingSpace =>
    obtain ⟨-, rfl⟩ := h
    exact .inr ⟨Reaper.reaped_outcome, nofun⟩
  | enabling cpu forever =>
    rcases h with ⟨handoff, -, rfl⟩ | ⟨-, rfl⟩
    · exact .inr (hbare rfl ⟨rfl, rfl⟩)
    · exact .inr (hbare rfl (by cases forever <;> exact ⟨rfl, rfl⟩))
  | running cpu handoff forever =>
    obtain ⟨-, rfl⟩ := h
    exact .inr (hbare rfl (by cases forever <;> exact ⟨rfl, rfl⟩))
  | undoing | idling =>
    obtain ⟨-, rfl⟩ := h
    exact .inr (hbare rfl ⟨rfl, rfl⟩)

/-- Whoever goes on to make the root process has been asked for it. -/
theorem boots_of_script {e : Event} (h : e.script acts p) (hp : p.boots = true) :
    e.boots = true := by
  cases e with
  | start request clock =>
    rcases errands_of_start h with ⟨-, hnone⟩ | ⟨-, hboots⟩
    · cases hnone.symm.trans hp
    · obtain ⟨name, image, rfl⟩ := hboots hp
      rfl
  | answer task reply clock =>
    rcases errands_of_resume h with ⟨-, hnone⟩ | ⟨-, hboots⟩
    · cases hnone.symm.trans hp
    · exact hboots hp

/-- Once its image has been mapped, the root process is made. -/
theorem boots_of_crowns {e : Event} (h : e.script acts p) (hi : e.crowns? = some i) :
    e.boots = true ∧ p.boots = false := by
  cases e with
  | start => cases hi
  | answer task reply clock =>
    obtain ⟨caller, s⟩ := task
    cases s with
    | mapping j name image =>
      cases reply with
      | some space =>
        obtain ⟨pid, -, rfl⟩ := h
        exact ⟨rfl, rfl⟩
      | none => exact h.elim
    | _ => cases hi

end Event

end FeedbackQueue
