import FeedbackQueue.Proofs.Histories

/-!
# Pids

Every allocation takes a pid that no allocation has taken before, whatever becomes of the slot, and
a slot loses its pid when it is freed.  So a pid names one slot at most, and one that no slot has
any more is never seen again.

## Main definitions

* `View.Numbered` : the pids of the slots in use.
* `View.Renames` : what a change does to the pid of a slot.
* `Machine.Step.given?` : the pid that a step gives out.

## Main statements

* `Act.renames_apply` : pids are given out by allocations, and taken away from slots that are freed.
* `Machine.numbered_of_history` : pids rise along every run, and do not come back.
-/

namespace FeedbackQueue

namespace View

variable {P : Params} {v w : View} {i : Slot} {p : Process}

/-- Free slots and no others are without a pid, and the pids of slots in use are distinct and have
all been given out. -/
structure Numbered (v : View) : Prop where
  pid_eq_nobody_iff : ∀ i, (v.record i).pid = nobody ↔ (v.record i).stage = .unused
  pid_lt : ∀ i, (v.record i).pid < v.nextPid
  pid_inj : ∀ i j, (v.record i).stage ≠ .unused → (v.record i).pid = (v.record j).pid → i = j

/-- What a change does to the pid of a slot. -/
inductive Renames (v w : View) (i : Slot) : Prop
  /-- The slot keeps it, or stays without. -/
  | keeps (hpid : (w.record i).pid = (v.record i).pid)
      (hstage : (w.record i).stage = .unused ↔ (v.record i).stage = .unused)
  /-- The slot gets the next pid. -/
  | gives (hpid : (w.record i).pid = v.nextPid) (hstage : (w.record i).stage = .embryo)
      (hnext : w.nextPid = v.nextPid + 1) (hothers : ∀ j, j ≠ i → w.record j = v.record j)
  /-- The slot is freed and loses it. -/
  | takes (hpid : (w.record i).pid = nobody) (hstage : (w.record i).stage = .unused)

theorem Renames.of_phase (hpid : (w.record i).pid = (v.record i).pid)
    (hphase : (w.record i).stage.phase = (v.record i).stage.phase) : v.Renames w i := by
  refine .keeps hpid ?_
  rw [← Stage.phase_eq_free, hphase, Stage.phase_eq_free]

theorem Renames.of_eq (h : w.record i = v.record i) : v.Renames w i :=
  .of_phase (by rw [h]) (by rw [h])

theorem Numbered.of_renames (h : v.Numbered) (hnext : v.nextPid ≤ w.nextPid)
    (hrenames : ∀ i, v.Renames w i) : w.Numbered where
  pid_eq_nobody_iff i := by
    cases hrenames i with
    | keeps hpid hstage => rw [hpid, hstage, h.pid_eq_nobody_iff]
    | gives hpid hstage =>
      have hpos := h.pid_lt i
      rw [hpid, hstage]
      exact iff_of_false (Nat.ne_of_gt (Nat.zero_lt_of_lt hpos)) nofun
    | takes hpid hstage => exact iff_of_true hpid hstage
  pid_lt i := by
    have hlt := h.pid_lt i
    cases hrenames i with
    | keeps hpid => exact hpid ▸ Nat.lt_of_lt_of_le hlt hnext
    | gives hpid _ hnew =>
      rw [hpid, hnew]
      exact Nat.lt_succ_self _
    | takes hpid => exact hpid ▸ Nat.zero_lt_of_lt (Nat.lt_of_lt_of_le hlt hnext)
  pid_inj i j hi hij := by
    by_contra hne
    cases hrenames i with
    | keeps hpid hstage =>
      cases hrenames j with
      | keeps hpid' =>
        rw [hpid, hpid'] at hij
        exact hne (h.pid_inj i j (mt hstage.2 hi) hij)
      | gives hpid' =>
        -- an old pid is not the new one
        rw [hpid, hpid'] at hij
        exact absurd hij (Nat.ne_of_lt (h.pid_lt i))
      | takes hpid' =>
        rw [hpid, hpid', h.pid_eq_nobody_iff] at hij
        exact hi (hstage.2 hij)
    | gives hpid _ _ hothers =>
      rw [hpid, hothers j (Ne.symm hne)] at hij
      exact absurd hij (Nat.ne_of_gt (h.pid_lt j))
    | takes _ hstage => exact hi hstage

/-- A process that is named after a change was named before, or its pid is new. -/
theorem named_of_renames (hrenames : v.Renames w i) (hi : (w.record i).stage ≠ .unused) :
    (v.record i).stage ≠ .unused ∧ (w.record i).pid = (v.record i).pid ∨
      (w.record i).pid = v.nextPid ∧ w.nextPid = v.nextPid + 1 := by
  cases hrenames with
  | keeps hpid hstage => exact .inl ⟨mt hstage.2 hi, hpid⟩
  | gives hpid _ hnext => exact .inr ⟨hpid, hnext⟩
  | takes _ hstage => exact absurd hstage hi

theorem wakeParent_nextPid : (v.wakeParent p).nextPid = v.nextPid := by
  unfold wakeParent
  split <;> rfl

theorem adopt_nextPid : (v.adopt P i).nextPid = v.nextPid := by
  unfold adopt
  dsimp only
  split
  · split <;> rfl
  · rfl

theorem sweepIfDue_nextPid {now : Nat} : (v.sweepIfDue P now).nextPid = v.nextPid := by
  unfold sweepIfDue
  split <;> rfl

end View

namespace Act

variable {P : Params} {v : View} {a : Act} {i : Slot}

/-- Only an allocation takes a pid. -/
theorem nextPid_apply (h : ∀ i now, a ≠ .conceive i now) :
    (a.apply P v).nextPid = v.nextPid := by
  cases a with
  | conceive i now => exact absurd rfl (h i now)
  | retire cpu i now =>
    exact (View.adopt_nextPid (v := v.wakeParent (v.record i))).trans View.wakeParent_nextPid
  | reclaim cpu i now =>
    refine View.sweepIfDue_nextPid.trans ?_
    split
    · exact View.wakeParent_nextPid
    · rfl
  | sweepIfDue now => exact View.sweepIfDue_nextPid
  | kill i =>
    unfold apply View.kill
    dsimp only
    split <;> rfl
  | assign i priority =>
    unfold apply View.assign
    dsimp only
    split <;> rfl
  | _ => rfl

theorem nextPid_le_apply : v.nextPid ≤ (a.apply P v).nextPid := by
  by_cases h : ∃ i now, a = .conceive i now
  · obtain ⟨i, now, rfl⟩ := h
    exact Nat.le_succ _
  · rw [nextPid_apply fun i now ha => h ⟨i, now, ha⟩]

/-- **Pids are given out by allocations, and taken away from slots that are freed.** -/
theorem renames_apply (h : a.Enabled v) : v.Renames (a.apply P v) i := by
  rcases a.kinds with hcalm | ⟨j, hj⟩ | ⟨cpu, j, now, rfl⟩
  · have hcalm := (calm_apply (P := P) h hcalm).2 i
    exact .of_phase hcalm.pid hcalm.phase
  · by_cases hij : i = j
    · subst i
      -- the slot that is written
      cases a with
      | conceive j now =>
        cases hj
        refine .gives ?_ ?_ rfl fun k hk => record_of_writes rfl hk
        · rw [apply, View.conceive_record, Function.update_self]
          rfl
        · rw [apply, View.conceive_record, Function.update_self]
          rfl
      | discard j =>
        cases hj
        refine .takes ?_ ?_ <;>
        · rw [apply, View.discard_record, Function.update_self]
          rfl
      | abandon j =>
        cases hj
        refine .takes ?_ ?_ <;>
        · rw [apply, View.abandon_record, Function.update_self]
          rfl
      | crown j name space =>
        cases hj
        refine .keeps ?_ ?_
        · rw [apply, View.crown_record, Function.update_self]
          simp only [Process.enter, Process.crown_pid]
        · rw [apply, View.crown_record, Function.update_self, h.2]
          exact iff_of_false (by rintro ⟨⟩) (by decide)
      | launch j plan space files cwd =>
        cases hj
        have hembryo : (v.record j).stage = .embryo := h
        refine .keeps ?_ ?_
        · rw [apply, View.launch_record, Function.update_self]
          rfl
        · rw [apply, View.launch_record, Function.update_self, hembryo]
          exact iff_of_false (by rintro ⟨⟩) (by decide)
      | reap cpu me j =>
        cases hj
        refine .takes ?_ ?_ <;>
        · rw [apply, View.reap_record, Function.update_self]
          rfl
      | _ => cases hj
    · exact .of_eq (record_of_writes hj hij)
  · obtain ⟨_, _, stage, _, _, e, hphase, -⟩ := v.retire_record_eq (P := P) j i now
    have hself : ((v.retire P j now).record i).pid = (v.record i).pid := by rw [e]
    refine .keeps hself ?_
    have hrunning : (v.record j).stage = .running := h.2
    change ((v.retire P j now).record i).stage = .unused ↔ _
    rw [e, ← Stage.phase_eq_free]
    dsimp only
    rw [hphase]
    split
    · subst i
      rw [hrunning]
      exact iff_of_false (by decide) (by decide)
    · exact Stage.phase_eq_free

/-- A slot that is in use after an act other than its allocation was so before, under the same
pid. -/
theorem kept_apply (h : a.Enabled v) (hnew : ∀ now, a ≠ .conceive i now)
    (hi : ((a.apply P v).record i).stage ≠ .unused) :
    (v.record i).stage ≠ .unused ∧ ((a.apply P v).record i).pid = (v.record i).pid := by
  by_cases hother : ∃ j now, a = .conceive j now
  · obtain ⟨j, now, rfl⟩ := hother
    have hij : i ≠ j := by
      rintro rfl
      exact hnew now rfl
    rw [record_of_writes rfl hij] at hi ⊢
    exact ⟨hi, rfl⟩
  · have hnext := nextPid_apply (P := P) (v := v) fun j now ha => hother ⟨j, now, ha⟩
    exact (View.named_of_renames (renames_apply h) hi).resolve_right fun hgives =>
      Nat.ne_of_lt (Nat.lt_succ_self _) (hnext.symm.trans hgives.2)

theorem numbered_apply (h : v.Numbered) (he : a.Enabled v) : (a.apply P v).Numbered :=
  h.of_renames nextPid_le_apply fun _ => renames_apply he

end Act

namespace View

variable {u v w : View} {given given' : List Pid} {i : Slot}

theorem Steady.renames (h : v.Steady w) : v.Renames w i :=
  .of_phase (h.record i).pid (h.record i).phase

/-- A change in which some pids are given out, one after the other from the next one on.  Whoever is
in use afterwards has one of them, or has been in use before under the same pid. -/
structure Renumbers (v : View) (given : List Pid) (w : View) : Prop where
  next : w.nextPid = v.nextPid + given.length
  given_eq : given = List.range' v.nextPid given.length
  named : ∀ i, (w.record i).stage ≠ .unused →
    (w.record i).pid ∈ given ∨ (v.record i).stage ≠ .unused ∧ (w.record i).pid = (v.record i).pid

theorem Renumbers.refl (v : View) : v.Renumbers [] v := ⟨rfl, rfl, fun _ hi => .inr ⟨hi, rfl⟩⟩

theorem Renumbers.trans (h : u.Renumbers given v) (h' : v.Renumbers given' w) :
    u.Renumbers (given ++ given') w where
  next := by rw [h'.next, h.next, List.length_append, Nat.add_assoc]
  given_eq := by
    rw [List.length_append, ← List.range'_append_1, ← h.next, ← h.given_eq, ← h'.given_eq]
  named i hi := by
    rcases h'.named i hi with hnew | ⟨hv, hpid⟩
    · exact .inl (List.mem_append_right _ hnew)
    · rw [hpid]
      exact (h.named i hv).imp_left (List.mem_append_left _)

/-- Nothing is given out. -/
theorem renumbers_of_renames (hnext : w.nextPid = v.nextPid) (hrenames : ∀ i, v.Renames w i) :
    v.Renumbers [] w where
  next := hnext
  given_eq := rfl
  named i hi := .inr ((named_of_renames (hrenames i) hi).resolve_right fun hnew =>
    Nat.ne_of_lt (Nat.lt_succ_self _) (hnext.symm.trans hnew.2))

theorem Steady.renumbers (h : v.Steady w) : v.Renumbers [] w :=
  renumbers_of_renames h.nextPid fun _ => h.renames

end View

/-- A pid has been given out, and is nobody's now. -/
structure View.Spent (v : View) (pid : Pid) : Prop where
  ne_nobody : pid ≠ nobody
  lt : pid < v.nextPid
  unnamed : ∀ i, (v.record i).pid ≠ pid

/-- What has been spent is not given out again. -/
theorem View.Renumbers.spent {v w : View} {given : List Pid} {pid : Pid} (h : v.Renumbers given w)
    (hw : w.Numbered) (hs : v.Spent pid) : w.Spent pid where
  ne_nobody := hs.ne_nobody
  lt := by
    rw [h.next]
    exact Nat.lt_add_right _ hs.lt
  unnamed i hi := by
    by_cases hunused : (w.record i).stage = .unused
    · exact hs.ne_nobody (hi.symm.trans ((hw.pid_eq_nobody_iff i).2 hunused))
    · rcases h.named i hunused with hnew | ⟨-, hsame⟩
      · rw [h.given_eq, List.mem_range'_1, hi] at hnew
        exact Nat.not_lt.2 hnew.1 hs.lt
      · exact hs.unnamed i (hsame.symm.trans hi)

theorem View.Numbered.steady {v w : View} (h : v.Numbered) (hs : v.Steady w) : w.Numbered :=
  h.of_renames (Nat.le_of_eq hs.nextPid.symm) fun _ => hs.renames

/-- The pids that an act gives out. -/
def Act.given (v : View) : Act → List Pid
  | conceive _ _ => [v.nextPid]
  | _ => []

theorem Act.renumbers_apply {P : Params} {v : View} {a : Act} (h : a.Enabled v) :
    v.Renumbers (a.given v) (a.apply P v) := by
  by_cases hnew : ∃ i now, a = .conceive i now
  · obtain ⟨i, now, rfl⟩ := hnew
    refine ⟨rfl, rfl, fun j hj => ?_⟩
    rcases View.named_of_renames (renames_apply h) hj with hold | ⟨hpid, -⟩
    · exact .inr hold
    · exact .inl (List.mem_singleton.2 hpid)
  · have hgiven : a.given v = [] := by
      cases a with
      | conceive i now => exact absurd ⟨i, now, rfl⟩ hnew
      | _ => rfl
    rw [hgiven]
    exact View.renumbers_of_renames (nextPid_apply fun i now ha => hnew ⟨i, now, ha⟩)
      fun _ => renames_apply h

/-! ### Runs -/

namespace Machine

variable {P : Params} {m m₁ : Machine P} {e : Event} {p : Progress} {steps : List (Step P)}

/-- The pid that a step gives out: that of the slot which it has taken. -/
def Step.given? (s : Step P) : Option Pid :=
  match s.event.deed? s.result, s.before.perform s.event with
  | some (.allocate i _), .ok (_, m) => some (m.table.record i).pid
  | _, _ => none

/-- A step gives out the next pid, or none. -/
theorem renumbers_of_perform_eq_ok (h : m.table.Orderly) (hperform : m.perform e = .ok (p, m₁)) :
    m.table.view.Renumbers (Step.given? ⟨m, e, p⟩).toList m₁.table.view := by
  unfold Step.given?
  dsimp only
  rw [hperform]
  cases does_of_perform_eq_ok h hperform with
  | steady hdeed hsteady =>
    rw [hdeed]
    exact hsteady.renumbers
  | @deed d u a hdeed ha _ hu he hw =>
    rw [hdeed]
    have hact := (hu.renumbers.trans (Act.renumbers_apply (P := P) he)).trans hw.renumbers
    rw [List.nil_append, List.append_nil] at hact
    cases a with
    | conceive i now =>
      cases ha
      have hpid : (m₁.table.record i).pid = u.nextPid := by
        rw [← Table.view_record, (hw.record i).pid, Act.apply, View.conceive_record,
          Function.update_self]
        rfl
      dsimp only
      rw [hpid]
      exact hact
    | _ => cases ha <;> exact hact

/-- A slot in use was so before, under the same pid, or has just been allocated. -/
theorem kept_or_allocated {i : Slot} (h : m.table.Orderly) (hperform : m.perform e = .ok (p, m₁))
    (hi : (m₁.table.record i).stage ≠ .unused) :
    (m.table.record i).stage ≠ .unused ∧ (m₁.table.record i).pid = (m.table.record i).pid ∨
      e.deed? p = some (.allocate i e.now) ∧
        ((m.table.record i).conceive P m.table.nextPid e.now).Steady (m₁.table.record i) := by
  cases does_of_perform_eq_ok h hperform with
  | steady _ hsteady =>
    refine .inl ⟨?_, (hsteady.record i).pid⟩
    rwa [ne_eq, ← Stage.phase_eq_free, ← Table.view_record, (hsteady.record i).phase,
      Stage.phase_eq_free] at hi
  | @deed d u a hdeed ha _ hu he hw =>
    have happly : ((a.apply P u).record i).stage ≠ .unused := by
      rwa [ne_eq, ← Stage.phase_eq_free, ← (hw.record i).phase, Stage.phase_eq_free]
    by_cases hnew : ∃ now, a = .conceive i now
    · obtain ⟨now, rfl⟩ := hnew
      cases ha
      obtain rfl := Event.reading_of_deed hdeed rfl
      -- an allocation sets whatever steady changes leave alone
      have hconceive : ((m.table.record i).conceive P m.table.nextPid e.now).Steady
          (((Act.conceive i e.now).apply P u).record i) := by
        rw [Act.apply, View.conceive_record, Function.update_self, hu.nextPid]
        exact ⟨rfl, rfl, .rfl, rfl, rfl, rfl, rfl, rfl, rfl⟩
      exact .inr ⟨hdeed, hconceive.trans (hw.record i)⟩
    · obtain ⟨hused, hpid⟩ := Act.kept_apply he (fun now h => hnew ⟨now, h⟩) happly
      refine .inl ⟨?_, ?_⟩
      · rwa [ne_eq, ← Stage.phase_eq_free, (hu.record i).phase, Stage.phase_eq_free] at hused
      · exact (hw.record i).pid.trans (hpid.trans (hu.record i).pid)

theorem History.renumbers (h : m.History steps m₁) (hm : m.table.Orderly) :
    m.table.view.Renumbers (steps.filterMap Step.given?) m₁.table.view := by
  induction h with
  | nil => exact .refl _
  | event hrun _ hperform ih =>
    rw [List.filterMap_append, filterMap_singleton]
    exact ih.trans (renumbers_of_perform_eq_ok (hrun.orderly hm) hperform)
  | grant hrun hgrants ih =>
    rw [← List.append_nil (List.filterMap _ _)]
    exact ih.trans (hgrants.steady (hrun.orderly hm)).renumbers

theorem History.numbered (h : m.History steps m₁) (hm : m.table.Orderly)
    (hnumbered : m.table.view.Numbered) : m₁.table.view.Numbered := by
  induction h with
  | nil => exact hnumbered
  | event hrun _ hperform ih =>
    obtain ⟨-, -, acts, hfollows, -⟩ := of_perform_eq_ok (hrun.orderly hm) hperform
    exact hfollows.preserves ih fun v a _ he hv => Act.numbered_apply hv he
  | grant hrun hgrants ih => exact ih.steady (hgrants.steady (hrun.orderly hm))

/-- What has been spent stays so. -/
theorem History.spent {pid : Pid} (h : m.History steps m₁) (hm : m.table.Orderly)
    (hnumbered : m.table.view.Numbered) (hs : m.table.view.Spent pid) : m₁.table.view.Spent pid :=
  (h.renumbers hm).spent (h.numbered hm hnumbered) hs

theorem numbered_fresh {now : Nat} : (View.fresh P now).Numbered where
  pid_eq_nobody_iff _ := iff_of_true rfl rfl
  pid_lt _ := Nat.zero_lt_one
  pid_inj _ _ hi := absurd rfl hi

/-- **Pids are given out once.**  Along every run they rise from one allocation to the next,
whatever becomes of the slots.  Where no event is under way, free slots and no others are without a
pid, and slots in use have distinct pids that have been given out.  A pid that has been given out
and that no slot has any more is had by no slot later on. -/
theorem numbered_of_history {t : Table P} {now : Nat} (hcreate : Table.create P now = .ok (.ok t))
    (hrun : History { table := t } steps m) :
    (steps.filterMap Step.given?).Pairwise (· < ·) ∧
    m.table.view.Numbered ∧
    (∀ i, (m.table.record i).stage ≠ .unused →
      (m.table.record i).pid ∈ steps.filterMap Step.given?) ∧
    ∀ pid ∈ steps.filterMap Step.given?, (∀ i, (m.table.record i).pid ≠ pid) →
      ∀ later m', m.History later m' → ∀ i, (m'.table.record i).pid ≠ pid := by
  obtain ⟨ht, hview⟩ := Table.orderly_of_create hcreate
  have hnumbered := hrun.numbered ht (hview ▸ numbered_fresh)
  have hrenumbers := hrun.renumbers ht
  rw [show ({ table := t } : Machine P).table.view = View.fresh P now from hview] at hrenumbers
  refine ⟨?_, hnumbered, fun i hi => ?_, fun pid hpid hgone later m' hlater i hi => ?_⟩
  · rw [hrenumbers.given_eq]
    exact List.pairwise_lt_range'
  · exact (hrenumbers.named i hi).resolve_right fun hold => hold.1 rfl
  · -- the pid has been given out, so it is neither that of a free slot nor a new one
    rw [hrenumbers.given_eq, List.mem_range'_1, ← hrenumbers.next] at hpid
    have hspent : m.table.view.Spent pid := ⟨Nat.ne_of_gt hpid.1, hpid.2, hgone⟩
    exact (hlater.spent (hrun.orderly ht) hnumbered hspent).unnamed i hi

/-- The pid of an allocation that got no stack is gone, also when its slot is taken again. -/
theorem numbered_of_refused : ∃ (t : Table ⟨1, 0, 1, 1, 1, true⟩) (steps : List (Step _))
    (m : Machine _), Table.create _ 0 = .ok (.ok t) ∧ History { table := t } steps m ∧
      steps.filterMap Step.given? = [1, 2] ∧ (m.table.record 0).pid = 2 ∧
      m.table.view.Numbered ∧
      ∀ later m', m.History later m' → ∀ i, (m'.table.record i).pid ≠ 1 := by
  obtain ⟨t, steps, m, hcreate, hrun, hgiven, hpid⟩ : ∃ (t : Table ⟨1, 0, 1, 1, 1, true⟩)
      (steps : List (Step _)) (m : Machine _), Table.create _ 0 = .ok (.ok t) ∧
        History { table := t } steps m ∧ steps.filterMap Step.given? = [1, 2] ∧
        (m.table.record 0).pid = 2 :=
    ⟨_, _, _, rfl,
      History.nil.event (e := .start .allocate 0) trivial rfl
        |>.event (e := .answer ⟨none, .allocating 0 .bare⟩ none 0) List.mem_cons_self rfl
        |>.event (e := .start .allocate 0) trivial rfl, rfl, rfl⟩
  obtain ⟨-, hnumbered, -, hgone⟩ := numbered_of_history hcreate hrun
  refine ⟨t, steps, m, hcreate, hrun, hgiven, hpid, hnumbered, fun later m' => ?_⟩
  refine hgone 1 (by simp [hgiven]) (fun i hi => ?_) later m'
  by_cases hlt : i < 1
  · obtain rfl := Nat.lt_one_iff.1 hlt
    cases hi.symm.trans hpid
  · rw [Table.record_of_le (Nat.le_of_not_lt hlt)] at hi
    cases hi

end Machine

end FeedbackQueue
