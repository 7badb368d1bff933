import FeedbackQueue.Proofs.Births

/-!
# Supplies

A process that has started has a stack and an address space, and it keeps them until it is reaped:
the root process and every child get both before they start, and an exit takes neither.

## Main definitions

* `Process.Supplied` : a record with a stack and an address space.
* `Suspension.stacked?` : the embryo of a request that has come by its stack.
* `Machine.Supplied` : all that have started are supplied, and embryos have their stacks.

## Main statements

* `Event.supplies_of_script` : an embryo has its stack before it starts.
* `Machine.History.supplied` : every run keeps processes supplied.
-/

namespace FeedbackQueue

/-- A stack and an address space. -/
structure Process.Supplied (p : Process) : Prop where
  stack : p.stack ≠ none
  space : p.space ≠ none

namespace View

variable {v w : View} {i : Slot}

/-- Who has started has a stack and an address space. -/
def Supplied (v : View) : Prop := ∀ i, v.Started i → (v.record i).Supplied

theorem Supplied.congr (h : v.Supplied)
    (hphase : ∀ i, (w.record i).stage.phase = (v.record i).stage.phase)
    (hholdings : w.holdings = v.holdings) : w.Supplied := by
  intro i hi
  have hbefore := h i (hi.of_phase (hphase i).symm)
  have hi := congrFun hholdings i
  have hstack : (w.record i).stack = (v.record i).stack := congrArg Holdings.stack hi
  have hspace : (w.record i).space = (v.record i).space := congrArg Holdings.space hi
  exact ⟨hstack ▸ hbefore.stack, hspace ▸ hbefore.space⟩

/-- A change of one record. -/
theorem Supplied.of_update {p : Process} (h : v.Supplied)
    (hw : w.record = Function.update v.record i p)
    (hp : p.stage ≠ .unused → p.stage ≠ .embryo → p.Supplied) : w.Supplied := by
  intro j hj
  rw [Started, hw, Function.update_apply] at hj
  rw [hw, Function.update_apply]
  split
  · rw [if_pos ‹_›] at hj
    exact hp hj.1 hj.2
  · rw [if_neg ‹_›] at hj
    exact h j hj

end View

namespace Act

variable {P : Params} {v : View} {a : Act} {i : Slot}

/-- The embryo that an act starts. -/
def starts? : Act → Option Slot
  | crown i _ _ | launch i _ _ _ _ => some i
  | _ => none

theorem supplied_apply (h : v.Supplied) (he : a.Enabled v)
    (hstarts : ∀ i, a.starts? = some i → (v.record i).stack ≠ none) :
    (a.apply P v).Supplied := by
  have hcalm : a.isCalm = true → a.deal v.holdings = v.holdings → (a.apply P v).Supplied :=
    fun hcalm hdeal => h.congr (fun i => ((calm_apply he hcalm).2 i).phase)
      (apply_holdings.trans hdeal)
  cases a with
  | conceive i now => exact h.of_update View.conceive_record fun _ hne => absurd rfl hne
  | giveStack i stack =>
    refine h.of_update (v.revise_record ..) fun hne hne' => ⟨nofun, (h i ⟨hne, hne'⟩).space⟩
  | discard i => exact h.of_update View.discard_record fun hne => absurd rfl hne
  | abandon i => exact h.of_update View.abandon_record fun hne => absurd rfl hne
  | crown i name space =>
    exact h.of_update View.crown_record fun _ _ => ⟨hstarts i rfl, nofun⟩
  | launch i plan space files cwd =>
    exact h.of_update View.launch_record fun _ _ => ⟨hstarts i rfl, nofun⟩
  | surrender cpu i =>
    refine h.of_update (v.revise_record ..) fun hne hne' => ?_
    exact ⟨(h i ⟨hne, hne'⟩).stack, (h i ⟨hne, hne'⟩).space⟩
  | retire cpu i now =>
    intro j hj
    obtain ⟨_, _, stage, _, _, e, hphase, -⟩ := v.retire_record_eq (P := P) i j now
    change ((v.retire P i now).record j).Supplied
    -- who has started by now had before: the exiting process was running
    have hbefore : v.Started j := by
      by_cases hij : j = i
      · subst j
        simp [View.Started, he.2]
      · rw [if_neg hij] at hphase
        refine hj.of_phase ?_
        change _ = ((v.retire P i now).record j).stage.phase
        rw [e]
        exact hphase.symm
    rw [e]
    exact ⟨(h j hbefore).stack, (h j hbefore).space⟩
  | reap cpu me i => exact h.of_update View.reap_record fun hne => absurd rfl hne
  | _ => exact hcalm rfl rfl

end Act

/-- The embryo, with a stack of its own, that a request goes on with. -/
def Suspension.stacked? : Suspension → Option Slot
  | mapping i _ _ | copying i _ _ | duplicating i _ _ _ _ _ | duplicatingCwd i _ _ _ _ => some i
  | _ => none

theorem Suspension.slot_of_stacked {s : Suspension} {i : Slot} (h : s.stacked? = some i) :
    s.slot? = some i := by
  cases s <;> cases h <;> rfl

/-- The embryo, with a stack of its own, that the rest of a request goes on with. -/
def Progress.stacked? : Progress → Option Slot
  | returned _ => none
  | waiting s => s.stacked?

theorem Progress.slot_of_stacked {p : Progress} {i : Slot} (h : p.stacked? = some i) :
    p.slot? = some i := by
  cases p with
  | returned => cases h
  | waiting s => exact s.slot_of_stacked h

namespace Event

/-- The embryo, with a stack of its own, that an event goes on with. -/
def stacked? : Event → Option Slot
  | start _ _ => none
  | answer task _ _ => task.suspension.stacked?

variable {e : Event} {acts : List Act} {p : Progress} {i : Slot} {now : Nat}

/-- What an event has to do with an embryo that has a stack. -/
inductive Supplies (e : Event) : (acts : List Act) → (p : Progress) → Prop
  /-- Nothing. -/
  | idle {acts : List Act} {p : Progress} (hacts : ∀ a ∈ acts, a.starts? = none)
      (hp : p.stacked? = none) : Supplies e acts p
  /-- It gives the embryo its stack. -/
  | gives {i : Slot} {stack : KernelStack} {p : Progress} (hp : p.stacked? = some i) :
      Supplies e [.giveStack i stack] p
  /-- It goes on with the embryo. -/
  | keeps {i : Slot} {p : Progress} (he : e.stacked? = some i) (hp : p.stacked? = some i) :
      Supplies e [] p
  /-- It starts the embryo. -/
  | starts {i : Slot} {a : Act} {p : Progress} (he : e.stacked? = some i)
      (ha : a.starts? = some i) (hp : p.stacked? = none) : Supplies e [a] p

/-- An event that goes on with no embryo starts none. -/
theorem supplies_of_slot (h : e.script acts p) (hslot : e.slot? = none) (hp : p.stacked? = none) :
    e.Supplies acts p := by
  refine .idle (fun a ha => ?_) hp
  refine Option.eq_none_iff_forall_ne_some.2 fun i hi => ?_
  have hbuilds : a.builds? = some i := by cases a <;> cases hi <;> rfl
  cases hslot.symm.trans (Act.slot_of_builds (owns_of_script h a ha) hbuilds)

theorem supplies_of_abandonFork (h : Script.abandonFork i acts p) : e.Supplies acts p := by
  rcases h with ⟨stack, rfl, rfl⟩ | ⟨rfl, rfl⟩ <;> exact .idle (List.forall_mem_singleton.2 rfl) rfl

theorem supplies_of_duplicateFiles {plan : Blueprint} {space : AddressSpace}
    {copies files : List FileHandle} (he : e.stacked? = some i)
    (h : Script.duplicateFiles i plan space copies files acts p) : e.Supplies acts p := by
  rcases Script.cases_duplicateFiles h with
    ⟨file, rest, rfl, rfl⟩ | ⟨dir, rfl, rfl⟩ | ⟨pid, rfl, rfl⟩
  · exact .keeps he rfl
  · exact .keeps he rfl
  · exact .starts he rfl rfl

theorem supplies_of_furnish {purpose : Purpose} {stack : KernelStack}
    (h : Script.furnish i purpose acts p) : e.Supplies (.giveStack i stack :: acts) p := by
  cases purpose with
  | bare =>
    obtain ⟨rfl, rfl⟩ := h
    exact .idle (List.forall_mem_singleton.2 rfl) rfl
  | root name image =>
    obtain ⟨rfl, rfl⟩ := h
    exact .gives rfl
  | child plan =>
    rcases Script.cases_furnish_child h with ⟨source, -, rfl, rfl⟩ | ⟨-, h⟩
    · exact .gives rfl
    · rcases h with ⟨stack, rfl, rfl⟩ | ⟨rfl, rfl⟩ <;>
        exact .idle (List.forall_mem_cons.2 ⟨rfl, List.forall_mem_singleton.2 rfl⟩) rfl

/-- **An embryo has its stack before it starts**: an event starts the embryo that it goes on with,
and a request goes on with an embryo that has a stack from the event that gives it. -/
theorem supplies_of_script (h : e.script acts p) : e.Supplies acts p := by
  cases e with
  | start request clock =>
    refine supplies_of_slot h rfl (Option.eq_none_iff_forall_ne_some.2 fun i hi => ?_)
    have hdeed := slot_of_start h (Progress.slot_of_stacked hi)
    -- the embryo of a new request waits for its stack
    cases p with
    | returned => cases hi
    | waiting s => cases s <;> cases hi <;> cases request <;> cases hdeed
  | answer task reply clock =>
    obtain ⟨caller, s⟩ := task
    have hidle : s.slot? = none → Supplies (.answer ⟨caller, s⟩ reply clock) acts p := fun hslot =>
      supplies_of_slot h hslot <| Option.eq_none_iff_forall_ne_some.2 fun i hi => by
        cases hslot.symm.trans (slot_of_resume h (Progress.slot_of_stacked hi)).1
    cases s with
    | allocating i purpose =>
      cases reply with
      | none =>
        obtain ⟨rfl, rfl⟩ := h
        exact .idle (List.forall_mem_singleton.2 rfl) rfl
      | some stack =>
        obtain ⟨rest, rfl, h⟩ := h
        exact supplies_of_furnish h
    | mapping i name image =>
      cases reply with
      | none => cases h
      | some space =>
        obtain ⟨pid, rfl, rfl⟩ := h
        exact .starts rfl rfl rfl
    | copying i plan source =>
      cases reply with
      | none => exact supplies_of_abandonFork h
      | some space => exact supplies_of_duplicateFiles rfl h
    | duplicating => exact supplies_of_duplicateFiles rfl h
    | duplicatingCwd =>
      obtain ⟨pid, rfl, rfl⟩ := h
      exact .starts rfl rfl rfl
    | _ => exact hidle rfl

end Event

namespace Machine

variable {P : Params} {m m₁ : Machine P} {e : Event} {p : Progress} {i : Slot}
  {steps : List (Step P)} {acts : List Act} {w : View}

/-- Who has started has a stack and an address space, and so have embryos their stacks that requests
go on with. -/
structure Supplied (m : Machine P) : Prop where
  started : m.table.view.Supplied
  embryos : ∀ task ∈ m.tasks, ∀ i, task.suspension.stacked? = some i →
    (m.table.record i).stack ≠ none

theorem Supplied.stack_of_stacked (h : m.Supplied) (hcan : m.CanHappen e)
    (hi : e.stacked? = some i) : (m.table.record i).stack ≠ none := by
  cases e with
  | start => cases hi
  | answer task reply clock => exact h.embryos task hcan i hi

theorem Supplied.started_after (h : m.Supplied) (hcan : m.CanHappen e)
    (hfollows : m.table.view.Follows P acts w) (hsupplies : e.Supplies acts p) : w.Supplied := by
  cases hsupplies with
  | idle hacts =>
    exact hfollows.preserves (I := View.Supplied) h.started fun v a ha he hv =>
      Act.supplied_apply hv he fun i hi => by cases hi.symm.trans (hacts a ha)
  | gives =>
    obtain ⟨he, rfl⟩ := hfollows
    exact Act.supplied_apply h.started he nofun
  | keeps =>
    cases hfollows
    exact h.started
  | starts hstacked ha =>
    obtain ⟨he, rfl⟩ := hfollows
    refine Act.supplied_apply h.started he fun i hi => ?_
    cases ha.symm.trans hi
    exact h.stack_of_stacked hcan hstacked

/-- Whatever happens, processes stay supplied. -/
theorem Supplied.of_perform_eq_ok (h : m.Supplied) (hn : m.Nursed) (hm : m.table.Orderly)
    (hcan : m.CanHappen e) (hperform : m.perform e = .ok (p, m₁)) : m₁.Supplied := by
  obtain ⟨-, hafter, acts, hfollows, hscript⟩ := Machine.of_perform_eq_ok hm hperform
  have hsupplies := Event.supplies_of_script hscript
  have hstarted := h.started_after hcan hfollows hsupplies
  have hold : ∀ other ∈ m.others e, ∀ i, other.suspension.stacked? = some i →
      (m₁.table.record i).stack ≠ none := by
    intro other hother i hi
    have hslot : other.slot? = some i := Suspension.slot_of_stacked hi
    have hstack := (hn.embryo_of_others hcan hfollows hscript hother hslot).2
    exact hstack.trans_ne (h.embryos other (mem_of_mem_others hother) i hi)
  have hnew : ∀ i, p.stacked? = some i → (m₁.table.record i).stack ≠ none := by
    intro i hi
    cases hsupplies with
    | idle _ hp | starts _ _ hp => cases hp.symm.trans hi
    | @gives j stack _ hp =>
      cases hp.symm.trans hi
      obtain ⟨-, hview⟩ := hfollows
      rw [← Table.view_record, hview]
      change ((m.table.view.revise i fun p => { p with stack := some stack }).record i).stack ≠ none
      rw [View.revise_record, Function.update_self]
      nofun
    | keeps hstacked hp =>
      cases hp.symm.trans hi
      have hview : m₁.table.view = m.table.view := hfollows
      rw [← Table.view_record, hview]
      exact h.stack_of_stacked hcan hstacked
  generalize m₁.table = t at *
  subst hafter
  refine ⟨hstarted, fun task htask i hi => ?_⟩
  rcases mem_tasks_after htask with htask | ⟨s, rfl, rfl⟩
  · exact hold task htask i hi
  · exact hnew i hi

theorem Supplied.of_grants {files : Multiset FileHandle} {t : Table P} (h : m.Supplied)
    (hm : m.table.Orderly) (hgrants : m.Grants i files t) : Supplied { m with table := t } := by
  refine ⟨fun j hstarted => ?_, fun task htask j hstacked => ?_⟩
  all_goals obtain ⟨files', cwd, hj⟩ := hgrants.exists_equip hm j
  · rw [View.Started, Table.view_record, hj] at hstarted
    rw [Table.view_record, hj]
    exact ⟨(h.started j hstarted).stack, (h.started j hstarted).space⟩
  · rw [hj]
    exact h.embryos task htask j hstacked

/-- **Who has started has a stack and an address space in every run.** -/
theorem History.supplied (h : m.History steps m₁) (hm : m.table.Orderly) (hnursed : m.Nursed)
    (hsupplied : m.Supplied) : m₁.Supplied := by
  induction h with
  | nil => exact hsupplied
  | event hrun hcan hperform ih =>
    exact ih.of_perform_eq_ok (hrun.nursed hm hnursed) (hrun.orderly hm) hcan hperform
  | grant hrun hgrants ih => exact ih.of_grants (hrun.orderly hm) hgrants

theorem History.supplied_before (h : m.History steps m₁) (hm : m.table.Orderly)
    (hnursed : m.Nursed) (hsupplied : m.Supplied) : ∀ s ∈ steps, s.before.Supplied := by
  intro s hs
  obtain ⟨past, later, rfl⟩ := List.append_of_mem hs
  obtain ⟨hpast, -⟩ := h.split
  exact hpast.supplied hm hnursed hsupplied

theorem supplied_of_create {t : Table P} {now : Nat} (hcreate : Table.create P now = .ok (.ok t)) :
    Supplied { table := t } := by
  refine ⟨?_, nofun⟩
  rw [(Table.orderly_of_create hcreate).2]
  exact fun i hi => absurd rfl hi.1

end Machine

end FeedbackQueue
