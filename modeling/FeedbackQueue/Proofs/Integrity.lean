import FeedbackQueue.Proofs.Courses

/-!
# Integrity of every run

No order of requests and answers breaks a table, whatever the clock reads, whichever files are
opened in between and whichever allocations fail.  The one thing that does harm is to take a CPU
back from a process that is still running: with audits the event faults, and without them the audit
of the table that it leaves names that process.

## Main definitions

* `Machine.Careful` : an event is no such misuse, or an audit would see it.

## Main statements

* `Machine.audit_of_reaches` : careful runs keep a table that passes its audit, and an audit faults
  in a misuse only.
* `Machine.audit_of_reaches_any` : what is left of this in runs with misuses.
-/

namespace FeedbackQueue

namespace Machine

variable {P : Params} {m m₁ : Machine P} {e : Event} {p : Progress} {t : Table P} {now : Nat}

/-- An event does not take a CPU back from a running process, unless an audit would see it. -/
def Careful (m : Machine P) (e : Event) : Prop := P.audited = true ∨ ¬ m.Misuses e

/-- A careful event leaves every running slot on a CPU. -/
theorem scheduled_of_perform_eq_ok (h : m.table.Orderly) (hscheduled : m.table.view.Scheduled)
    (hcareful : m.Careful e) (hperform : m.perform e = .ok (p, m₁)) :
    m₁.table.view.Scheduled := by
  have hleft : ¬ m.Misuses e := hcareful.elim
    (fun ha => not_misuses_of_perform_eq_ok h ha hperform) id
  obtain ⟨-, -, acts, hfollows, hscript⟩ := of_perform_eq_ok h hperform
  rcases (Event.course_of_script hscript).quiet_or with
    ⟨hquiet, -⟩ | ⟨cpu, handoff, now, rfl, -, -⟩ | ⟨cpu, handoff, now, rfl, hback, -⟩
  · exact (hfollows.quiet hquiet).scheduled hscheduled
  · obtain ⟨he, hview⟩ := hfollows
    rw [hview]
    exact Act.scheduled_apply he hscheduled nofun
  · obtain ⟨he, hview⟩ := hfollows
    rw [hview]
    refine Act.scheduled_apply he hscheduled fun cpu' i now' ha hrunning => hleft ?_
    cases ha
    exact ⟨cpu, handoff, hback, he, hrunning⟩

/-- An audit that faults sees a misuse. -/
theorem misuses_of_perform_eq_error (h : m.table.Orderly) {f : Fault}
    (hperform : m.perform e = .error f) (hf : f.byAudit = true) :
    P.audited = true ∧ m.Misuses e := by
  by_contra hcon
  have hplays := plays_stretch h fun ha hmis => hcon ⟨ha, hmis⟩
  have hstretch : m.stretch e = .error f := by
    unfold perform at hperform
    cases hs : m.stretch e with
    | error f' =>
      rw [hs] at hperform
      exact congrArg Except.error (Except.error.inj hperform)
    | ok x =>
      rw [hs] at hperform
      cases hperform
  rw [hplays.not_byAudit hstretch] at hf
  cases hf

/-- Careful runs keep every running slot on a CPU. -/
theorem Reaches.scheduled (h : Reaches Careful m m₁) (hm : m.table.Orderly)
    (hscheduled : m.table.view.Scheduled) : m₁.table.view.Scheduled :=
  h.invariant (I := fun m => m.table.view.Scheduled) hscheduled
    (fun _ _ _ _ hrun hs _ hcareful hperform =>
      scheduled_of_perform_eq_ok (hrun.orderly hm) hs hcareful hperform)
    fun _ _ _ _ hrun hs hgrants => (hgrants.quiet (hrun.orderly hm)).scheduled hs

/-- **Careful runs keep a table that passes its audit.**  Every event of such a run faults or leaves
such a table, unless it is a misuse and there are no audits; and a fault comes from an audit only
in a misuse. -/
theorem audit_of_reaches (hcreate : Table.create P now = .ok (.ok t))
    (h : Reaches Careful { table := t } m) :
    m.table.audit = .ok () ∧ ∀ e, m.CanHappen e →
      match m.perform e with
      | .ok (_, m₁) => m₁.table.audit = .ok () ∨ (P.audited = false ∧ m.Misuses e)
      | .error f => f.byAudit = true → P.audited = true ∧ m.Misuses e := by
  obtain ⟨ht, hview⟩ := Table.orderly_of_create hcreate
  have hfresh : t.view.Scheduled := by
    rw [hview]
    nofun
  have hm := h.orderly ht
  have hscheduled := h.scheduled ht hfresh
  refine ⟨hm.sound.audit_eq_ok_iff.2 hscheduled, fun e _ => ?_⟩
  split
  · rename_i p m₁ hperform
    by_cases hcareful : m.Careful e
    · refine .inl ((of_perform_eq_ok hm hperform).1.sound.audit_eq_ok_iff.2 ?_)
      exact scheduled_of_perform_eq_ok hm hscheduled hcareful hperform
    · obtain ⟨ha, hmis⟩ := not_or.1 hcareful
      exact .inr ⟨Bool.eq_false_iff.2 ha, not_not.1 hmis⟩
  · rename_i f hperform
    exact misuses_of_perform_eq_error hm hperform

/-- The root process opens a file and forks, and its child is still without a stack. -/
theorem audit_of_allocating : ∃ (t : Table ⟨2, 0, 1, 1, 1, true⟩) (m : Machine _),
    Table.create _ 0 = .ok (.ok t) ∧ Reaches Careful { table := t } m ∧
      (∃ plan, plan.files = [⟨7⟩] ∧ m.tasks = [⟨some 1, .allocating 1 (.child plan)⟩]) ∧
      m.table.audit = .ok () := by
  obtain ⟨t, hcreate, hleads⟩ : ∃ t : Table ⟨2, 0, 1, 1, 1, true⟩,
      Table.create _ 0 = .ok (.ok t) ∧ Leads Careful
        (fun m => ∃ t', m.Grants 0 {⟨7⟩} t' ∧ Leads Careful (fun m =>
          ∃ plan, plan.files = [⟨7⟩] ∧ m.tasks = [⟨some 1, .allocating 1 (.child plan)⟩])
          [.start (.fork 0) 0] { m with table := t' })
      [.start (.boot "" []) 0, .answer ⟨none, .allocating 0 (.root "" [])⟩ (some ⟨0⟩) 0,
        .answer ⟨none, .mapping 0 "" []⟩ (some ⟨0⟩) 0, .start (.dispatch 0) 0]
      { table := t } := by
    refine ⟨_, rfl, trivial, .inl rfl, _, _, rfl, ?_⟩
    refine ⟨List.mem_cons_self, .inl rfl, _, _, rfl, ?_⟩
    refine ⟨List.mem_cons_self, .inl rfl, _, _, rfl, ?_⟩
    refine ⟨trivial, .inl rfl, _, _, rfl, ?_⟩
    refine ⟨_, grants_of_tasks [⟨7⟩] rfl rfl rfl rfl, ?_⟩
    exact ⟨trivial, .inl rfl, _, _, rfl, _, rfl, rfl⟩
  obtain ⟨m, hrun, htasks⟩ := hleads.exists_reaches_grant
  exact ⟨t, m, hcreate, hrun, htasks, (audit_of_reaches hcreate hrun).1⟩

/-- Where CPUs have been taken back from running processes, an audit finds one of these, on no CPU,
and nothing else. -/
theorem audit_of_reaches_any (hcreate : Table.create P now = .ok (.ok t))
    (h : Reaches (fun _ _ => True) { table := t } m) :
    m.table.audit = .ok () ∨ P.audited = false ∧ ∃ i, (m.table.record i).stage = .running ∧
      ¬ m.table.view.Marked i ∧ m.table.audit = .error (.unscheduled i) := by
  have hm := h.orderly (Table.orderly_of_create hcreate).1
  rcases hm.sound.audit_eq_ok_or with ⟨hok, -⟩ | ⟨i, hrunning, hmarked, herr⟩
  · exact .inl hok
  · refine .inr ⟨Bool.eq_false_iff.2 fun ha => hmarked (hm.scheduled ha i hrunning), i, ?_⟩
    exact ⟨hrunning, hmarked, herr⟩

end Machine

end FeedbackQueue
