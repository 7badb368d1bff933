import FeedbackQueue.Proofs.Births

/-!
# Blank slots

A free slot holds neither a stack nor an address space, and an embryo has no address space before it
starts.  This takes no discipline: whatever processes do, a slot gets these things from the one
request that builds its process, and is freed by that request or by a parent that takes them out.

## Main definitions

* `Process.Blank` : a record without what its phase does not have yet.
* `Machine.Blank` : all records are blank, and embryos that wait for a stack have none.

## Main statements

* `Act.blank_apply` : acts leave records blank.
* `Machine.History.blank` : so does every run.
-/

namespace FeedbackQueue

/-- A free slot has neither a stack nor an address space, and an embryo no address space. -/
structure Process.Blank (p : Process) : Prop where
  stack : p.stage.phase = .free → p.stack = none
  space : p.stage.phase = .free ∨ p.stage.phase = .unborn → p.space = none

namespace Process.Blank

variable {p q : Process}

theorem congr (h : p.Blank) (hphase : q.stage.phase = p.stage.phase)
    (hholdings : q.holdings = p.holdings) : q.Blank := by
  have hstack : q.stack = p.stack := congrArg Holdings.stack hholdings
  have hspace : q.space = p.space := congrArg Holdings.space hholdings
  refine ⟨fun hq => ?_, fun hq => ?_⟩
  · rw [hstack]
    exact h.stack (hphase ▸ hq)
  · rw [hspace]
    exact h.space (hphase ▸ hq)

/-- Who has started may hold anything. -/
theorem of_started (hfree : p.stage.phase ≠ .free) (hunborn : p.stage.phase ≠ .unborn) : p.Blank :=
  ⟨fun h => absurd h hfree, fun h => absurd h (by simp [hfree, hunborn])⟩

end Process.Blank

namespace View

variable {v w : View} {i : Slot}

/-- All records are blank. -/
def Blank (v : View) : Prop := ∀ i, (v.record i).Blank

theorem Blank.congr (h : v.Blank)
    (hphase : ∀ i, (w.record i).stage.phase = (v.record i).stage.phase)
    (hholdings : w.holdings = v.holdings) : w.Blank := fun i =>
  (h i).congr (hphase i) (congrFun hholdings i)

/-- A change of one record. -/
theorem Blank.of_update {p : Process} (h : v.Blank) (hw : w.record = Function.update v.record i p)
    (hp : p.Blank) : w.Blank := by
  intro j
  rw [hw, Function.update_apply]
  split
  · exact hp
  · exact h j

end View

namespace Act

variable {P : Params} {v : View} {a : Act} {i : Slot}

/-- The embryo that must not have a stack yet. -/
def stackless? : Act → Option Slot
  | giveStack i _ | discard i => some i
  | _ => none

theorem blank_apply (h : v.Blank) (he : a.Enabled v)
    (hstackless : ∀ i, a.stackless? = some i →
      (v.record i).stage = .embryo ∧ (v.record i).stack = none) : (a.apply P v).Blank := by
  have hcalm : a.isCalm = true → a.deal v.holdings = v.holdings → (a.apply P v).Blank :=
    fun hcalm hdeal => h.congr (fun i => ((calm_apply he hcalm).2 i).phase)
      (apply_holdings.trans hdeal)
  have hspace : ∀ i, (v.record i).stage = .embryo → (v.record i).space = none := fun i hi =>
    (h i).space (.inr (Stage.phase_eq_unborn.2 hi))
  cases a with
  | conceive i now =>
    exact h.of_update View.conceive_record
      ⟨nofun, fun _ => (h i).space (.inl (Stage.phase_eq_free.2 he.2))⟩
  | giveStack i stack =>
    have hi := (hstackless i rfl).1
    refine h.of_update (v.revise_record ..) ⟨fun hfree => ?_, fun _ => hspace i hi⟩
    cases hi.symm.trans (Stage.phase_eq_free.1 hfree)
  | discard i =>
    exact h.of_update View.discard_record ⟨fun _ => (hstackless i rfl).2, fun _ => hspace i he⟩
  | abandon i => exact h.of_update View.abandon_record ⟨fun _ => rfl, fun _ => hspace i he⟩
  | crown i name space => exact h.of_update View.crown_record (.of_started nofun nofun)
  | launch i plan space files cwd => exact h.of_update View.launch_record (.of_started nofun nofun)
  | surrender => exact h.of_update (v.revise_record ..) ⟨(h _).stack, (h _).space⟩
  | retire cpu i now =>
    intro j
    obtain ⟨_, _, stage, _, _, e, hphase, -⟩ := v.retire_record_eq (P := P) i j now
    change ((v.retire P i now).record j).Blank
    rw [e]
    by_cases hj : j = i
    · rw [if_pos hj] at hphase
      exact .of_started (by simp [hphase]) (by simp [hphase])
    · rw [if_neg hj] at hphase
      exact (h j).congr hphase rfl
  | reap cpu me i => exact h.of_update View.reap_record ⟨fun _ => rfl, fun _ => rfl⟩
  | _ => exact hcalm rfl rfl

end Act

namespace Event

variable {acts : List Act} {p : Progress} {now : Nat} {clock : Clock} {i : Slot} {e : Event}

theorem stackless_of_abandonFork (h : Script.abandonFork i acts p) :
    ∀ a ∈ acts, a.stackless? = none := by
  rcases h with ⟨stack, rfl, -⟩ | ⟨rfl, -⟩ <;> exact List.forall_mem_singleton.2 rfl

/-- A request that waits with no embryo does not wait for the stack of one. -/
theorem allocates_of_slot (h : p.slot? = none) : p.allocates now = none := by
  cases p with
  | returned => rfl
  | waiting s => cases s <;> first | rfl | cases h

theorem stackless_of_duplicateFiles {plan : Blueprint} {space : AddressSpace}
    {copies files : List FileHandle} (h : Script.duplicateFiles i plan space copies files acts p) :
    (∀ a ∈ acts, a.stackless? = none) ∧ ∀ now, p.allocates now = none := by
  rcases Script.cases_duplicateFiles h with
    ⟨file, rest, rfl, rfl⟩ | ⟨dir, rfl, rfl⟩ | ⟨pid, rfl, rfl⟩
  · exact ⟨nofun, fun _ => rfl⟩
  · exact ⟨nofun, fun _ => rfl⟩
  · exact ⟨List.forall_mem_singleton.2 rfl, fun _ => rfl⟩

theorem stackless_of_furnish {purpose : Purpose} (h : Script.furnish i purpose acts p) :
    (∀ a ∈ acts, a.stackless? = none) ∧ ∀ now, p.allocates now = none := by
  cases purpose with
  | bare | root =>
    obtain ⟨rfl, rfl⟩ := h
    exact ⟨nofun, fun _ => rfl⟩
  | child plan =>
    rcases Script.cases_furnish_child h with ⟨source, -, rfl, rfl⟩ | ⟨-, h⟩
    · exact ⟨nofun, fun _ => rfl⟩
    · exact ⟨stackless_of_abandonFork h, fun _ => allocates_of_slot (slot_of_abandonFork h)⟩

/-- Only the answer to a request for a stack gives one, or frees an embryo without one, and it does
so first. -/
theorem stackless_of_script (h : e.script acts p) :
    (∀ a ∈ acts, a.stackless? = none) ∨ ∃ caller i purpose reply clock a rest,
      e = .answer ⟨caller, .allocating i purpose⟩ reply clock ∧ acts = a :: rest ∧
        a.stackless? = some i ∧ ∀ b ∈ rest, b.stackless? = none := by
  refine or_iff_not_imp_left.2 fun hsome => ?_
  obtain ⟨a, ha, hi⟩ : ∃ a ∈ acts, a.stackless? ≠ none := by simpa using hsome
  obtain ⟨i, hi⟩ := Option.ne_none_iff_exists'.1 hi
  -- the embryo is that of the event
  have hslot : e.slot? = some i :=
    Act.slot_of_builds (owns_of_script h a ha) (by cases a <;> cases hi <;> rfl)
  cases e with
  | start => cases hslot
  | answer task reply clock =>
    obtain ⟨caller, s⟩ := task
    have habsurd : ¬ ∀ b ∈ acts, b.stackless? = none := fun hnone => by
      cases hi.symm.trans (hnone a ha)
    cases s with
    | allocating i purpose =>
      cases reply with
      | none =>
        obtain ⟨rfl, rfl⟩ := h
        exact ⟨caller, i, purpose, none, clock, _, [], rfl, rfl, rfl, nofun⟩
      | some stack =>
        obtain ⟨rest, rfl, h⟩ := h
        exact ⟨caller, i, purpose, some stack, clock, _, rest, rfl, rfl, rfl,
          (stackless_of_furnish h).1⟩
    | mapping i name image =>
      cases reply with
      | none => cases h
      | some space =>
        obtain ⟨pid, rfl, rfl⟩ := h
        exact (habsurd (List.forall_mem_singleton.2 rfl)).elim
    | copying i plan source =>
      cases reply with
      | none => exact (habsurd (stackless_of_abandonFork h)).elim
      | some space => exact (habsurd (stackless_of_duplicateFiles h).1).elim
    | duplicating => exact (habsurd (stackless_of_duplicateFiles h).1).elim
    | duplicatingCwd =>
      obtain ⟨pid, rfl, rfl⟩ := h
      exact (habsurd (List.forall_mem_singleton.2 rfl)).elim
    | _ => cases hslot

/-- No answer makes a request wait for another stack. -/
theorem allocates_of_resume {s : Suspension} {reply : s.call.Answer}
    (h : Script.resume clock s reply acts p) : p.allocates clock.now = none := by
  cases s with
  | allocating i purpose =>
    cases reply with
    | none =>
      obtain ⟨-, rfl⟩ := h
      rfl
    | some stack =>
      obtain ⟨rest, -, h⟩ := h
      exact (stackless_of_furnish h).2 clock.now
  | mapping i name image =>
    cases reply with
    | none => cases h
    | some space =>
      obtain ⟨pid, -, rfl⟩ := h
      rfl
  | copying i plan source =>
    cases reply with
    | none => exact allocates_of_slot (slot_of_abandonFork h)
    | some space => exact (stackless_of_duplicateFiles h).2 clock.now
  | duplicating => exact (stackless_of_duplicateFiles h).2 clock.now
  | duplicatingCwd =>
    obtain ⟨pid, -, rfl⟩ := h
    rfl
  | undoing | idling => exact allocates_of_slot (slot_of_light (.only rfl) h)
  | freeingSpace =>
    obtain ⟨-, rfl⟩ := h
    rfl
  | closing => exact allocates_of_slot (slot_of_closeFiles h)
  | switching _ resumption =>
    cases resumption with
    | exit | proceed => exact allocates_of_slot (slot_of_light (.only rfl) h)
    | terminate => cases h
    | wait => exact allocates_of_slot (slot_of_waitRound h)
    | sleepFor => exact allocates_of_slot (slot_of_light .sleepRound h)
  | freeingStack => exact allocates_of_slot (slot_of_releaseSpace h)
  | enabling => exact allocates_of_slot (slot_of_light .dispatchRound h)
  | running cpu handoff forever =>
    exact allocates_of_slot (slot_of_light (.single rfl (by cases forever <;> rfl)) h)

/-- A request that waits for the stack of an embryo has just taken the slot. -/
theorem conceives_of_script {purpose : Purpose}
    (h : e.script acts (.waiting (.allocating i purpose))) :
    ∃ now, acts = [.conceive i now] ∨ ∃ cpu plan, acts = [.copy cpu plan, .conceive i now] := by
  have hallocate : ∀ {purpose' : Purpose} {acts : List Act} {now : Nat},
      Script.allocateFor purpose' now acts (.waiting (.allocating i purpose)) →
        acts = [.conceive i now] := by
    rintro purpose' acts now (⟨-, h⟩ | ⟨j, rfl, h⟩)
    · cases h
    · cases h
      rfl
  cases e with
  | answer task reply clock => cases allocates_of_resume h
  | start request clock =>
    have hdeed := slot_of_start h rfl
    cases request with
    | allocate | boot => exact ⟨clock.now, .inl (hallocate h)⟩
    | fork cpu =>
      obtain ⟨plan, rest, rfl, h⟩ := h
      exact ⟨clock.now, .inr ⟨cpu, plan, by rw [hallocate h]⟩⟩
    | _ => cases hdeed

end Event

namespace Machine

variable {P : Params} {m m₁ : Machine P} {e : Event} {p : Progress} {i : Slot}
  {steps : List (Step P)}

/-- Free slots hold neither stack nor address space, embryos no address space, and those that wait
for a stack have none. -/
structure Blank (m : Machine P) : Prop where
  records : m.table.view.Blank
  stackless : ∀ task ∈ m.tasks, ∀ i purpose, task.suspension = .allocating i purpose →
    (m.table.record i).stack = none

theorem Blank.records_after {acts : List Act} {w : View} (h : m.Blank) (hn : m.Nursed)
    (hcan : m.CanHappen e) (hfollows : m.table.view.Follows P acts w) (hscript : e.script acts p) :
    w.Blank := by
  have hrest : ∀ {acts : List Act} {v : View}, (∀ a ∈ acts, a.stackless? = none) → v.Blank →
      v.Follows P acts w → w.Blank := fun hacts hv hfollows =>
    hfollows.preserves (I := View.Blank) hv fun u a ha he hu =>
      Act.blank_apply hu he fun i hi => by cases hi.symm.trans (hacts a ha)
  rcases Event.stackless_of_script hscript with
    hacts | ⟨caller, i, purpose, reply, now, a, rest, rfl, rfl, ha, hacts⟩
  · exact hrest hacts h.records hfollows
  · obtain ⟨he, hfollows⟩ := hfollows
    refine hrest hacts (Act.blank_apply h.records he fun j hj => ?_) hfollows
    cases ha.symm.trans hj
    exact ⟨hn.embryo _ hcan i rfl, h.stackless _ hcan i purpose rfl⟩

/-- Whatever happens, records stay blank. -/
theorem Blank.of_perform_eq_ok (h : m.Blank) (hn : m.Nursed) (hm : m.table.Orderly)
    (hcan : m.CanHappen e) (hperform : m.perform e = .ok (p, m₁)) : m₁.Blank := by
  obtain ⟨-, hafter, acts, hfollows, hscript⟩ := Machine.of_perform_eq_ok hm hperform
  have hrecords := h.records_after hn hcan hfollows hscript
  have hold : ∀ other ∈ m.others e, ∀ i purpose, other.suspension = .allocating i purpose →
      (m₁.table.record i).stack = none := by
    intro other hother i purpose hwaits
    have hslot : other.slot? = some i := by simp [Task.slot?, hwaits, Suspension.slot?]
    have hstack := (hn.embryo_of_others hcan hfollows hscript hother hslot).2
    exact hstack.trans (h.stackless other (mem_of_mem_others hother) i purpose hwaits)
  -- a new embryo has been a free slot, and so has no stack
  have hnew : ∀ i purpose, p = .waiting (.allocating i purpose) →
      (m₁.table.record i).stack = none := by
    rintro i purpose rfl
    have hconceive : ∀ now, m.table.view.Follows P [.conceive i now] m₁.table.view →
        (m₁.table.record i).stack = none := by
      rintro now ⟨he, hview⟩
      rw [← Table.view_record, hview]
      change ((m.table.view.conceive P i now).record i).stack = none
      rw [View.conceive_record, Function.update_self]
      exact (h.records i).stack (Stage.phase_eq_free.2 he.2)
    obtain ⟨now, rfl | ⟨cpu, plan, rfl⟩⟩ := Event.conceives_of_script hscript
    · exact hconceive now hfollows
    · exact hconceive now hfollows.2
  generalize m₁.table = t at *
  subst hafter
  refine ⟨hrecords, fun task htask i purpose hwaits => ?_⟩
  rcases mem_tasks_after htask with htask | ⟨s, rfl, rfl⟩
  · exact hold task htask i purpose hwaits
  · exact hnew i purpose (congrArg _ hwaits)

theorem Blank.of_grants {files : Multiset FileHandle} {t : Table P} (h : m.Blank)
    (hm : m.table.Orderly) (hgrants : m.Grants i files t) : Blank { m with table := t } := by
  refine ⟨fun j => ?_, fun task htask j purpose hwaits => ?_⟩
  all_goals obtain ⟨files', cwd, hj⟩ := hgrants.exists_equip hm j
  · rw [Table.view_record, hj]
    exact ⟨(h.records j).stack, (h.records j).space⟩
  · rw [hj]
    exact h.stackless task htask j purpose hwaits

/-- **Free slots are blank in every run.** -/
theorem History.blank (h : m.History steps m₁) (hm : m.table.Orderly) (hnursed : m.Nursed)
    (hblank : m.Blank) : m₁.Blank := by
  induction h with
  | nil => exact hblank
  | event hrun hcan hperform ih =>
    exact ih.of_perform_eq_ok (hrun.nursed hm hnursed) (hrun.orderly hm) hcan hperform
  | grant hrun hgrants ih => exact ih.of_grants (hrun.orderly hm) hgrants

theorem blank_of_create {t : Table P} {now : Nat} (hcreate : Table.create P now = .ok (.ok t)) :
    Blank { table := t } := by
  refine ⟨?_, nofun⟩
  rw [(Table.orderly_of_create hcreate).2]
  exact fun i => ⟨fun _ => rfl, fun _ => rfl⟩

end Machine

end FeedbackQueue
