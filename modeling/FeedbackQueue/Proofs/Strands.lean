import FeedbackQueue.Proofs.Histories

/-!
# Strands

The steps of many requests are mixed in a run.  A *strand* holds those of one request: the step in
which it is made, and the answers to its calls, one after the other.

## Main definitions

* `Machine.Strand` : the steps of a request, as far as it has come.
* `Machine.Step.Lawful` : a step of a disciplined run.
* `Machine.Traced` : a run with the steps of a request in it.

## Main statements

* `Machine.Strand.caller_eq` : all steps of a request happen for the same process.
* `Machine.History.exists_strand` : every step of a run is one of a request.
-/

namespace FeedbackQueue

namespace Machine

variable {P : Params} {m m₁ : Machine P} {steps past : List (Step P)} {s last : Step P}
  {request : Request} {first : Clock}

/-- The request that waits for an answer after a step, unless it has ended. -/
def Step.task? (s : Step P) : Option Task :=
  match s.result with
  | .waiting suspension => some ⟨s.before.caller s.event, suspension⟩
  | .returned _ => none

/-- The steps of a request, the last one apart; `first` is what the clock reads where it is made. -/
inductive Strand (request : Request) (first : Clock) :
    (past : List (Step P)) → (last : Step P) → Prop
  /-- The request has just been made. -/
  | start {m : Machine P} {p : Progress} :
      Strand request first [] ⟨m, .start request first, p⟩
  /-- The call of the last step has been answered. -/
  | answer {past : List (Step P)} {last : Step P} {m : Machine P} {task : Task}
      {reply : task.suspension.call.Answer} {clock : Clock} {p : Progress} :
      Strand request first past last → last.task? = some task →
      Strand request first (past ++ [last]) ⟨m, .answer task reply clock, p⟩

theorem Step.task?_eq_some {task : Task} (h : s.task? = some task) :
    task.caller = s.before.caller s.event ∧ s.result = .waiting task.suspension := by
  unfold task? at h
  split at h
  · cases h
    exact ⟨rfl, ‹_›⟩
  · cases h

theorem task?_of_waiting {e : Event} {suspension : Suspension} {caller : Option Pid}
    (h : m.caller e = caller) :
    Step.task? ⟨m, e, .waiting suspension⟩ = some ⟨caller, suspension⟩ := by
  subst h
  rfl

/-- All steps of a request happen for the same process. -/
theorem Strand.caller_eq (h : Strand request first past last) :
    ∀ s ∈ past, s.before.caller s.event = last.before.caller last.event := by
  induction h with
  | start => exact List.forall_mem_nil _
  | answer _ htask ih =>
    have hlast := (Step.task?_eq_some htask).1
    exact List.forall_mem_append.2
      ⟨fun s hs => (ih s hs).trans hlast.symm, List.forall_mem_singleton.2 hlast.symm⟩

/-- A step of a disciplined run. -/
structure Step.Lawful (s : Step P) : Prop where
  kept : s.before.Kept
  disciplined : s.before.Disciplined s.event
  performs : ∃ m₁, s.before.perform s.event = .ok (s.result, m₁)

theorem History.lawful (h : m.History steps m₁) (hm : m.Kept)
    (hdisciplined : ∀ s ∈ steps, s.before.Disciplined s.event) : ∀ s ∈ steps, s.Lawful := by
  intro s hs
  obtain ⟨past, later, rfl⟩ := List.append_of_mem hs
  obtain ⟨hpast, -, m₂, hperform, -⟩ := h.split
  exact ⟨hpast.kept hm fun s hs => hdisciplined s (List.mem_append_left _ hs),
    hdisciplined s hs, m₂, hperform⟩

/-- A step is the last one of a request, so far, among the steps of a run. -/
def Step.Ends (s : Step P) (steps : List (Step P)) : Prop :=
  ∃ request first past, Strand request first past s ∧ (past ++ [s]).Sublist steps

theorem Step.Ends.append (h : s.Ends steps) (later : List (Step P)) : s.Ends (steps ++ later) := by
  obtain ⟨request, first, past, hstrand, hsub⟩ := h
  exact ⟨request, first, past, hstrand, hsub.trans (List.sublist_append_left ..)⟩

/-- **Every step of a run is one of a request**, and so is every call that waits for its answer. -/
theorem History.exists_strand (h : m.History steps m₁) (hm : m.tasks = []) :
    (∀ s ∈ steps, s.Ends steps) ∧
      ∀ task ∈ m₁.tasks, ∃ s : Step P, s.task? = some task ∧ s.Ends steps := by
  induction h with
  | nil => exact ⟨List.forall_mem_nil _, by simp [hm]⟩
  | @event steps m₂ m₃ e p hrun hcan hperform ih =>
    obtain ⟨hsteps, htasks⟩ := ih
    have hnew : Step.Ends ⟨m₂, e, p⟩ (steps ++ [⟨m₂, e, p⟩]) := by
      cases e with
      | start request clock => exact ⟨request, clock, [], .start, List.sublist_append_right ..⟩
      | answer task reply clock =>
        obtain ⟨s, htask, request, first, past, hstrand, hsub⟩ := htasks task hcan
        exact ⟨request, first, past ++ [s], .answer hstrand htask, hsub.append_right _⟩
    refine ⟨List.forall_mem_append.2 ⟨fun s hs => (hsteps s hs).append _,
      List.forall_mem_singleton.2 hnew⟩, fun task htask => ?_⟩
    obtain ⟨⟨q, t⟩, -, hafter⟩ := bind_eq_ok.1 hperform
    cases hafter
    rcases mem_tasks_after htask with htask | ⟨suspension, rfl, rfl⟩
    · obtain ⟨s, hs, hends⟩ := htasks task (mem_of_mem_others htask)
      exact ⟨s, hs, hends.append _⟩
    · exact ⟨_, rfl, hnew⟩
  | grant _ _ ih => exact ih

/-! ### Runs with a request in them -/

/-- A run of allowed events with the steps of a request in it. -/
structure Traced (allowed : Machine P → Event → Prop) (m : Machine P) (steps : List (Step P))
    (m₁ : Machine P) (request : Request) (first : Clock) (past : List (Step P)) (last : Step P) :
    Prop where
  history : m.History steps m₁
  allowed : ∀ s ∈ steps, allowed s.before s.event
  strand : Strand request first past last
  sublist : (past ++ [last]).Sublist steps

namespace Traced

variable {allowed : Machine P → Event → Prop} {m₂ : Machine P} {p : Progress}
  {later : List (Step P)}

theorem start (h : m.History steps m₁) (hsteps : ∀ s ∈ steps, allowed s.before s.event)
    (hallowed : allowed m₁ (.start request first))
    (hperform : m₁.perform (.start request first) = .ok (p, m₂)) :
    Traced allowed m (steps ++ [⟨m₁, .start request first, p⟩]) m₂ request first []
      ⟨m₁, .start request first, p⟩ where
  history := h.event trivial hperform
  allowed := List.forall_mem_append.2 ⟨hsteps, List.forall_mem_singleton.2 hallowed⟩
  strand := .start
  sublist := List.sublist_append_right ..

/-- Other steps come in between. -/
theorem trans (h : Traced allowed m steps m₁ request first past last)
    (hlater : m₁.History later m₂) (hsteps : ∀ s ∈ later, allowed s.before s.event) :
    Traced allowed m (steps ++ later) m₂ request first past last where
  history := h.history.trans hlater
  allowed := List.forall_mem_append.2 ⟨h.allowed, hsteps⟩
  strand := h.strand
  sublist := h.sublist.trans (List.sublist_append_left ..)

theorem answer {task : Task} {reply : task.suspension.call.Answer} {clock : Clock}
    (h : Traced allowed m steps m₁ request first past last) (htask : last.task? = some task)
    (hcan : task ∈ m₁.tasks) (hallowed : allowed m₁ (.answer task reply clock))
    (hperform : m₁.perform (.answer task reply clock) = .ok (p, m₂)) :
    Traced allowed m (steps ++ [⟨m₁, .answer task reply clock, p⟩]) m₂ request first
      (past ++ [last]) ⟨m₁, .answer task reply clock, p⟩ where
  history := h.history.event hcan hperform
  allowed := List.forall_mem_append.2 ⟨h.allowed, List.forall_mem_singleton.2 hallowed⟩
  strand := .answer h.strand htask
  sublist := h.sublist.append_right _

end Traced

end Machine

end FeedbackQueue
