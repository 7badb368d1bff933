import FeedbackQueue.Proofs.Acts

/-!
# Steps in the life of a process

What the acts that are not calm do to identity, phase and parent.  A birth or a reaping writes one
slot, which is free or on its way there and hence on no CPU; an exit takes one slot to the dead and
its children to the root process.

## Main definitions

* `View.Started`, `View.AllStarted` : a slot holds a process that has started; all marked slots do.
* `View.heir` : the parent of a slot after the exit of a process.
* `Act.writes?` : the slot that an act of a birth or a reaping writes.
* `Process.Nudged`, `Act.moves?` : a change that a process has no part in; the slot that has.

## Main statements

* `View.retire_record_eq` : the record of any slot after an exit.
* `Act.started_apply` : a process that has started stays so and keeps its pid, unless it is reaped.
* `Act.allStarted_apply` : processes on CPUs have started.
* `Act.nudged_apply` : an act changes all but one slot from outside at most.
-/

namespace FeedbackQueue

namespace View

variable {P : Params} {v : View} {i j : Slot} {now : Nat}

/-- A slot holds a process that has started. -/
def Started (v : View) (i : Slot) : Prop :=
  (v.record i).stage ≠ .unused ∧ (v.record i).stage ≠ .embryo

/-- Every slot on a CPU holds a process that has started. -/
def AllStarted (v : View) : Prop := ∀ i, v.Marked i → v.Started i

theorem started_iff : v.Started i ↔
    (v.record i).stage.phase ≠ .free ∧ (v.record i).stage.phase ≠ .unborn := by
  rw [Started, ne_eq, ne_eq, ne_eq, ne_eq, Stage.phase_eq_free, Stage.phase_eq_unborn]

theorem Started.of_phase {w : View} (h : v.Started i)
    (hphase : (w.record i).stage.phase = (v.record i).stage.phase) : w.Started i := by
  rw [started_iff, hphase]
  exact started_iff.1 h

theorem Calm.started {w : View} (h : v.Calm w) (hi : v.Started i) : w.Started i :=
  hi.of_phase (h.2 i).phase

/-! ### Records -/

theorem discard_record : (v.discard i).record =
    Function.update v.record i ((v.record i).forget.enter .unused) := by
  simp [discard]

theorem abandon_record : (v.abandon i).record =
    Function.update v.record i ({ v.record i with stack := none }.forget.enter .unused) := by
  simp [abandon, discard]

theorem crown_record {name : String} {space : AddressSpace} : (v.crown i name space).record =
    Function.update v.record i (((v.record i).crown name space).enter .runnable) := by
  simp [crown]

theorem launch_record {plan : Blueprint} {space : AddressSpace} {files : List FileHandle}
    {cwd : Option FileHandle} : (v.launch i plan space files cwd).record =
    Function.update v.record i (((v.record i).launch plan space files cwd).enter .runnable) := by
  simp [launch]

theorem reap_record : (v.reap i).record =
    Function.update v.record i
      ({ v.record i with stack := none, space := none }.forget.enter .unused) := by
  simp [reap]

theorem leave_record {f : Process → Process} : (v.leave P i now f).record =
    Function.update v.record i ((f ((v.record i).charge P.budget now)).bill now) := by
  simp [leave, depart]

/-- The view of a sound table. -/
def Sound (P : Params) (v : View) : Prop := ∃ t : Table P, t.Sound ∧ t.view = v

theorem Sound.wake (h : v.Sound P) (c : Channel) : (v.wake c).Sound P := by
  obtain ⟨t, ht, rfl⟩ := h
  obtain ⟨t', -, ht', hview⟩ := ht.wake_eq_ok c
  exact ⟨t', ht', hview⟩

theorem Sound.wakeParent (h : v.Sound P) (p : Process) : (v.wakeParent p).Sound P := by
  unfold View.wakeParent
  split
  · exact h.wake _
  · exact h

theorem Sound.surrender (h : v.Sound P) (hi : i < P.capacity) : (v.surrender i).Sound P := by
  obtain ⟨t, ht, rfl⟩ := h
  obtain ⟨t', -, -, ht', hview⟩ :=
    (ht.yields_revise (i := i) (f := fun p => { p with files := [], cwd := none })
      (ht.valid.priority_le i) fun _ => rfl).exists_ok hi
  exact ⟨t', ht', hview⟩

/-- An exit passes the slots in use on its search for children. -/
theorem Sound.mem_searched_iff (h : v.Sound P) :
    j ∈ Table.searched.flatMap (v.members P) ↔ (v.record j).stage ≠ .unused := by
  obtain ⟨t, ht, rfl⟩ := h
  rw [List.mem_flatMap]
  constructor
  · rintro ⟨s, hs, hj⟩
    rw [(ht.valid.mem_members_iff.1 hj).2]
    rintro rfl
    simp [Table.searched] at hs
  · intro hj
    refine ⟨_, ?_, ht.valid.mem_members_iff.2 ⟨Table.lt_of_stage_ne hj, rfl⟩⟩
    cases hs : (t.view.record j).stage <;> first | exact absurd hs hj | simp [Table.searched]

/-- The parent of a slot once the children of `i` have gone to the root process. -/
def heir (i j : Slot) (v : View) : Option Slot :=
  if (v.record j).stage ≠ .unused ∧ (v.record j).parent = some i then v.root
  else (v.record j).parent

/-- Adoption gives the children another parent, and wakes the root process at most. -/
theorem adopt_record (v : View) (i j : Slot) : ∃ parent channel stage,
    (v.adopt P i).record j = { v.record j with parent, channel, stage } ∧
      stage.phase = (v.record j).stage.phase ∧ (v.Sound P → parent = v.heir i j) := by
  have hreparent : ∃ parent, (v.reparent i (Table.searched.flatMap (v.members P))).record j =
      { v.record j with parent } ∧ (v.Sound P → parent = v.heir i j) := by
    unfold reparent heir
    dsimp only
    split
    · refine ⟨_, rfl, fun h => (if_pos ⟨?_, (‹_ ∧ _›).2⟩).symm⟩
      exact h.mem_searched_iff.1 (‹_ ∧ _›).1
    · rename_i hj
      refine ⟨_, rfl, fun h => (if_neg fun hj' => hj ?_).symm⟩
      exact ⟨h.mem_searched_iff.2 hj'.1, hj'.2⟩
  unfold adopt
  dsimp only
  obtain ⟨parent, hparent, hheir⟩ := hreparent
  generalize v.reparent i (Table.searched.flatMap (v.members P)) = w at hparent ⊢
  -- a wake-up on top changes channel and stage only
  have hwake : ∀ c, ∃ parent channel stage, (w.wake c).record j =
      { v.record j with parent, channel, stage } ∧
        stage.phase = (v.record j).stage.phase ∧ (v.Sound P → parent = v.heir i j) := by
    intro c
    obtain ⟨channel, stage, e⟩ := wake_record_eq (v := w) (c := c) (i := j)
    have hphase := ((calm_wake (v := w) (c := c)).2 j).phase
    rw [e, hparent] at hphase
    exact ⟨parent, channel, stage, by rw [e, hparent], hphase, hheir⟩
  split
  · split
    · exact hwake _
    · exact ⟨parent, _, _, hparent, rfl, hheir⟩
  · exact ⟨parent, _, _, hparent, rfl, hheir⟩

/-- Everybody keeps pid and kill flag in an exit, one slot goes to the dead, and its children go to
the root process. -/
theorem retire_record_eq (v : View) (i j : Slot) (now : Nat) : ∃ parent channel stage size cpuTicks,
    (v.retire P i now).record j = { v.record j with parent, channel, stage, size, cpuTicks } ∧
      stage.phase = (if j = i then .dead else (v.record j).stage.phase) ∧
      (v.Sound P → parent = v.heir i j) := by
  obtain ⟨channel₁, stage₁, e₁⟩ := v.wakeParent_record_eq (p := v.record i) (i := j)
  have hphase₁ := ((v.calm_wakeParent (p := v.record i)).2 j).phase
  obtain ⟨parent, channel, stage, e, hphase, hparent⟩ :=
    (v.wakeParent (v.record i)).adopt_record (P := P) i j
  -- the parent has been woken before, which frees no slot and moves no child
  have hheir : v.Sound P → parent = v.heir i j := by
    intro h
    have hunused : ((v.wakeParent (v.record i)).record j).stage ≠ .unused ↔
        (v.record j).stage ≠ .unused := by
      rw [ne_eq, ne_eq, ← Stage.phase_eq_free, hphase₁, Stage.phase_eq_free]
    rw [hparent (h.wakeParent _)]
    unfold heir
    simp only [hunused, wakeParent_root]
    rw [e₁]
  rw [hphase₁] at hphase
  have hrecord : (v.retire P i now).record =
      Function.update ((v.wakeParent (v.record i)).adopt P i).record i
        ({ ((v.wakeParent (v.record i)).adopt P i).record i with stage := .zombie, size := 0 }.bill
          now) := by
    simp [retire, depart, Process.enter]
  rw [hrecord, Function.update_apply]
  split
  · subst j
    rw [e, e₁]
    exact ⟨_, _, _, _, _, rfl, rfl, hheir⟩
  · rw [e, e₁]
    exact ⟨_, _, _, _, _, rfl, hphase, hheir⟩

theorem retire_marker : (v.retire P i now).marker = v.marker := by
  simp only [retire, depart, revise_marker, shift_marker, adopt_marker, wakeParent_marker]

theorem adopt_root : (v.adopt P i).root = v.root := by
  unfold adopt
  dsimp only
  split
  · split <;> rfl
  · rfl

theorem retire_root : (v.retire P i now).root = v.root := by
  simp only [retire, depart, revise_root, shift_root, adopt_root, wakeParent_root]

/-- An adoption gives nobody another parent than the root process. -/
theorem adopt_parent : ((v.adopt P i).record j).parent = (v.record j).parent ∨
    ((v.adopt P i).record j).parent = v.root := by
  have hreparent : ∀ xs, ((v.reparent i xs).record j).parent = (v.record j).parent ∨
      ((v.reparent i xs).record j).parent = v.root := by
    intro xs
    unfold reparent
    dsimp only
    split
    · exact .inr rfl
    · exact .inl rfl
  unfold adopt
  dsimp only
  split
  · split
    · rw [(calm_wake.2 j).parent]
      exact hreparent _
    · exact hreparent _
  · exact hreparent _

/-- Nor does an exit. -/
theorem retire_parent (now : Nat) : ((v.retire P i now).record j).parent = (v.record j).parent ∨
    ((v.retire P i now).record j).parent = v.root := by
  have hadopt := adopt_parent (P := P) (v := v.wakeParent (v.record i)) (i := i) (j := j)
  rw [(calm_wakeParent.2 j).parent, wakeParent_root] at hadopt
  have hparent : ((v.retire P i now).record j).parent =
      (((v.wakeParent (v.record i)).adopt P i).record j).parent := by
    simp only [retire, depart, revise_record, shift_record, Function.update_apply]
    split
    · subst j
      simp [Process.bill, Process.enter]
    · rfl
  rw [hparent]
  exact hadopt

end View

/-! ### Acts -/

namespace Act

variable {P : Params} {v : View} {a : Act} {i j : Slot} {cpu : Cpu}

/-- The slot that an act of a birth or a reaping writes. -/
def writes? : Act → Option Slot
  | conceive i _ | discard i | abandon i | crown i _ _ | launch i _ _ _ _ | reap _ _ i => some i
  | _ => none

/-- An act is calm, writes one slot, or is an exit. -/
theorem kinds (a : Act) :
    a.isCalm = true ∨ (∃ i, a.writes? = some i) ∨ ∃ cpu i now, a = .retire cpu i now := by
  cases a with
  | conceive i | discard i | abandon i | crown i | launch i => exact .inr (.inl ⟨i, rfl⟩)
  | reap _ _ i => exact .inr (.inl ⟨i, rfl⟩)
  | retire cpu i now => exact .inr (.inr ⟨cpu, i, now, rfl⟩)
  | _ => exact .inl rfl

theorem record_of_writes (h : a.writes? = some i) (hj : j ≠ i) :
    (a.apply P v).record j = v.record j := by
  cases a <;> cases h
  · exact Function.update_of_ne hj ..
  · exact congrFun View.discard_record j |>.trans (Function.update_of_ne hj ..)
  · exact congrFun View.abandon_record j |>.trans (Function.update_of_ne hj ..)
  · exact congrFun View.crown_record j |>.trans (Function.update_of_ne hj ..)
  · exact congrFun View.launch_record j |>.trans (Function.update_of_ne hj ..)
  · exact congrFun View.reap_record j |>.trans (Function.update_of_ne hj ..)

/-- The slot that an act writes is that of a process that has not started, or of one reaped. -/
theorem not_started_of_writes (h : a.Enabled v) (hj : a.writes? = some j) :
    ¬ v.Started j ∨ ∃ cpu me, a = .reap cpu me j := by
  cases a <;> cases hj
  · exact .inl fun hs => hs.1 h.2
  · exact .inl fun hs => hs.2 h
  · exact .inl fun hs => hs.2 h
  · exact .inl fun hs => hs.2 h.2
  · exact .inl fun hs => hs.2 h
  · exact .inr ⟨_, _, rfl⟩

/-- The slot that an act writes is on no CPU. -/
theorem not_marked_of_writes (h : a.Enabled v) (hv : v.AllStarted) (hj : a.writes? = some j) :
    ¬ v.Marked j := by
  rcases not_started_of_writes h hj with hnot | ⟨cpu, me, rfl⟩
  · exact mt (hv j) hnot
  · exact h.2.2.2

/-- A process that has started stays so and keeps its pid, unless its slot is written. -/
theorem started_apply (h : a.Enabled v) (hi : v.Started i)
    (hm : ∀ j, a.writes? = some j → i ≠ j) :
    (a.apply P v).Started i ∧ ((a.apply P v).record i).pid = (v.record i).pid := by
  rcases a.kinds with hcalm | ⟨j, hj⟩ | ⟨cpu, j, now, rfl⟩
  · have hcalm := calm_apply (P := P) h hcalm
    exact ⟨hcalm.started hi, (hcalm.2 i).pid⟩
  · have hrecord := record_of_writes (P := P) (v := v) hj (hm j hj)
    rw [View.Started, hrecord]
    exact ⟨hi, rfl⟩
  · obtain ⟨_, _, stage, _, _, e, hphase, -⟩ := v.retire_record_eq (P := P) j i now
    change (v.retire P j now).Started i ∧ ((v.retire P j now).record i).pid = (v.record i).pid
    rw [View.started_iff, e]
    refine ⟨?_, rfl⟩
    dsimp only
    rw [hphase]
    split
    · simp
    · exact View.started_iff.1 hi

/-- The markers after an act other than a reclaim. -/
theorem marker_apply (h : a.Enabled v) (hm : v.marker cpu = some i)
    (hne : ∀ j now, a ≠ .reclaim cpu j now) : (a.apply P v).marker cpu = some i := by
  by_cases hquiet : a.isQuiet = true
  · rw [(quiet_apply h hquiet).1]
    exact hm
  cases a with
  | dispatch cpu' handoff now =>
    have hcpu : cpu ≠ cpu' := by
      rintro rfl
      rw [h.1] at hm
      cases hm
    exact (Function.update_of_ne hcpu ..).trans hm
  | reclaim cpu' j now =>
    have hcpu : cpu ≠ cpu' := by
      rintro rfl
      exact hne j now rfl
    exact (congrFun View.reclaim_marker cpu).trans ((Function.update_of_ne hcpu ..).trans hm)
  | _ => exact absurd rfl hquiet

/-- A marked slot was marked before, or has just been dispatched. -/
theorem marked_of_apply (h : a.Enabled v) (hm : (a.apply P v).marker cpu = some i) :
    v.marker cpu = some i ∨ ∃ pid now, a = .dispatch cpu ⟨i, pid⟩ now := by
  by_cases hquiet : a.isQuiet = true
  · rw [(quiet_apply h hquiet).1] at hm
    exact .inl hm
  cases a with
  | dispatch cpu' handoff now =>
    have hm : Function.update v.marker cpu' (some handoff.slot) cpu = some i := hm
    rw [Function.update_apply] at hm
    split at hm
    · cases hm
      subst cpu'
      exact .inr ⟨handoff.pid, now, rfl⟩
    · exact .inl hm
  | reclaim cpu' j now =>
    have hm : Function.update v.marker cpu' none cpu = some i :=
      (congrFun View.reclaim_marker cpu).symm.trans hm
    rw [Function.update_apply] at hm
    split at hm
    · cases hm
    · exact .inl hm
  | _ => exact absurd rfl hquiet

/-- Processes on CPUs have started. -/
theorem allStarted_apply (h : a.Enabled v) (hv : v.AllStarted) : (a.apply P v).AllStarted := by
  rintro i ⟨cpu, hm⟩
  have hstarted : v.Started i ∧ ∀ j, a.writes? = some j → i ≠ j := by
    rcases marked_of_apply h hm with hm | ⟨pid, now, rfl⟩
    · -- a slot that is written is on no CPU
      refine ⟨hv i ⟨cpu, hm⟩, fun j hj => ?_⟩
      rintro rfl
      exact not_marked_of_writes h hv hj ⟨cpu, hm⟩
    · refine ⟨?_, nofun⟩
      rw [View.Started, h.2.1]
      exact ⟨nofun, nofun⟩
  exact (started_apply h hstarted.1 hstarted.2).1

/-- Only the start of the root process changes the root. -/
theorem root_apply (h : a.Enabled v) : (a.apply P v).root = v.root ∨
    ∃ i name space, a = .crown i name space ∧ (a.apply P v).root = some i := by
  rcases a.kinds with hcalm | ⟨j, hj⟩ | ⟨cpu, j, now, rfl⟩
  · exact .inl (calm_apply h hcalm).1
  · cases a with
    | crown i name space => exact .inr ⟨i, name, space, rfl, rfl⟩
    | conceive | discard | abandon | launch | reap => exact .inl rfl
    | _ => cases hj
  · exact .inl View.retire_root

end Act

/-! ### Changes from outside -/

/-- A change of a record that the process itself has no part in: it stays in its stage, unless it
sleeps and is woken. -/
structure Process.Nudged (p q : Process) : Prop where
  stage : q.stage = p.stage ∨ p.stage = .sleeping ∧ q.stage = .runnable
  asleep : q.stage = .sleeping → q.channel = p.channel ∧ q.killed = p.killed

namespace Process.Nudged

variable {p q r : Process}

theorem of_eq (hstage : q.stage = p.stage) (hchannel : q.channel = p.channel)
    (hkilled : q.killed = p.killed) : p.Nudged q :=
  ⟨.inl hstage, fun _ => ⟨hchannel, hkilled⟩⟩

theorem refl (p : Process) : p.Nudged p := .of_eq rfl rfl rfl

theorem trans (h : p.Nudged q) (h' : q.Nudged r) : p.Nudged r where
  stage := by
    -- woken at most once: a sleeper that has been woken is not asleep
    rcases h'.stage with hr | ⟨hq, hr⟩
    · rw [hr]
      exact h.stage
    · rcases h.stage with hp | ⟨-, hp⟩
      · exact .inr ⟨hp.symm.trans hq, hr⟩
      · rw [hp] at hq
        cases hq
  asleep hr := by
    have hq : q.stage = .sleeping := by
      rcases h'.stage with hq | ⟨-, hr'⟩
      · exact hq.symm.trans hr
      · rw [hr'] at hr
        cases hr
    obtain ⟨hchannel, hkilled⟩ := h'.asleep hr
    obtain ⟨hchannel', hkilled'⟩ := h.asleep hq
    exact ⟨hchannel.trans hchannel', hkilled.trans hkilled'⟩

/-- A sleeper that is woken. -/
theorem awaken (h : p.stage = .sleeping) : p.Nudged p.awaken := ⟨.inr ⟨h, rfl⟩, nofun⟩

/-- Who is asleep afterwards was asleep before. -/
theorem sleeping (h : p.Nudged q) (hq : q.stage = .sleeping) : p.stage = .sleeping := by
  rcases h.stage with hp | ⟨hp, -⟩
  · exact hp.symm.trans hq
  · exact hp

/-- Who is awake stays in its stage. -/
theorem stage_eq (h : p.Nudged q) (hp : p.stage ≠ .sleeping) : q.stage = p.stage :=
  h.stage.resolve_right fun hs => hp hs.1

end Process.Nudged

namespace View

variable {P : Params} {v : View} {i j : Slot} {c : Channel} {now : Nat} {f : Process → Process}

/-- A change of the view is a change from outside for a slot. -/
def Nudged (j : Slot) (v w : View) : Prop := (v.record j).Nudged (w.record j)

theorem Nudged.refl (v : View) : v.Nudged j v := Process.Nudged.refl _

theorem Nudged.trans {u w : View} (h : u.Nudged j v) (h' : v.Nudged j w) : u.Nudged j w :=
  Process.Nudged.trans h h'

theorem Nudged.of_eq {w : View} (h : w.record j = v.record j) : v.Nudged j w := by
  rw [Nudged, h]
  exact .refl _

theorem nudged_revise (h : (v.record i).Nudged (f (v.record i))) : v.Nudged j (v.revise i f) := by
  rw [Nudged, revise_record, Function.update_apply]
  split
  · subst j
    exact h
  · exact .refl _

theorem nudged_shift (h : (v.record i).Nudged (f (v.record i))) : v.Nudged j (v.shift i f) :=
  nudged_revise h

theorem nudged_wake : v.Nudged j (v.wake c) := by
  unfold Nudged wake
  dsimp only
  split
  · exact .awaken (Process.sleepsOn_iff.1 ‹_›).1
  · exact .refl _

theorem nudged_wakeParent {p : Process} : v.Nudged j (v.wakeParent p) := by
  unfold wakeParent
  split
  · exact nudged_wake
  · exact .refl v

theorem nudged_sweep : v.Nudged j (v.sweep P) := by
  unfold Nudged sweep
  dsimp only
  split
  · obtain ⟨_, _, e⟩ := (v.record j).promote_eq (P := P)
    rw [e]
    exact .of_eq rfl rfl rfl
  · exact .refl _

theorem nudged_sweepIfDue : v.Nudged j (v.sweepIfDue P now) := by
  unfold sweepIfDue
  split
  · exact nudged_sweep
  · exact .refl v

theorem nudged_kill : v.Nudged j (v.kill i) := by
  by_cases hj : j = i
  · subst hj
    by_cases hsleeping : (v.record j).stage = .sleeping
    · refine ⟨.inr ⟨hsleeping, ?_⟩, ?_⟩ <;> simp [kill, hsleeping, Process.awaken]
    · refine ⟨.inl ?_, fun hs => absurd ?_ hsleeping⟩
      · simp [kill, hsleeping]
      · simp [kill, hsleeping] at hs
  · refine .of_eq ?_
    unfold kill
    dsimp only
    split <;> simp [hj]

theorem nudged_reclaim {cpu : Cpu} : v.Nudged j (v.reclaim P cpu i now) := by
  have hmark : v.Nudged j (v.mark cpu none) := .of_eq rfl
  unfold reclaim
  refine hmark.trans (Nudged.trans ?_ nudged_sweepIfDue)
  split
  · exact nudged_wakeParent
  · exact .refl _

theorem nudged_leave (hj : j ≠ i) : v.Nudged j (v.leave P i now f) := by
  refine .of_eq ?_
  rw [leave_record, Function.update_of_ne hj]

theorem nudged_adopt : v.Nudged j (v.adopt P i) := by
  have hreparent : ∀ xs, v.Nudged j (v.reparent i xs) := by
    intro xs
    unfold Nudged reparent
    dsimp only
    split
    · exact .of_eq rfl rfl rfl
    · exact .refl _
  unfold adopt
  dsimp only
  split
  · split
    · exact (hreparent _).trans nudged_wake
    · exact hreparent _
  · exact hreparent _

theorem nudged_retire (hj : j ≠ i) : v.Nudged j (v.retire P i now) := by
  refine (nudged_wakeParent (p := v.record i)).trans ((nudged_adopt (P := P) (i := i)).trans
    (.of_eq ?_))
  simp [retire, depart, hj]

end View

namespace Act

variable {P : Params} {v : View} {a : Act} {i : Slot} {cpu : Cpu}

/-- The slot that an act itself takes from one stage to another. -/
def moves? : Act → Option Slot
  | retire _ i _ | await _ i _ | park _ i _ _ | yield _ i _ => some i
  | dispatch _ handoff _ => some handoff.slot
  | a => a.writes?

/-- For everybody else an act is a change from outside. -/
theorem nudged_apply (h : a.Enabled v) (hi : a.moves? ≠ some i) : v.Nudged i (a.apply P v) := by
  have hne : ∀ j, a.moves? = some j → i ≠ j := by
    rintro j hj rfl
    exact hi hj
  cases a with
  | giveStack | surrender | setUid | setGid | depart =>
    rw [apply]
    exact View.nudged_revise (.of_eq rfl rfl rfl)
  | copy => exact .refl v
  | await | park | yield =>
    rw [apply]
    exact View.nudged_leave (hne _ rfl)
  | dispatch =>
    refine .of_eq ?_
    simp only [apply, View.dispatch, View.mark_record, View.shift_record,
      Function.update_of_ne (hne _ rfl)]
  | reclaim => exact View.nudged_reclaim
  | sweep => exact View.nudged_sweep
  | sweepIfDue => exact View.nudged_sweepIfDue
  | wake => exact View.nudged_wake
  | rouse => exact View.nudged_shift (.awaken h)
  | kill => exact View.nudged_kill
  | assign =>
    rw [View.Nudged, apply, View.assign_record, Function.update_apply]
    split
    · subst i
      exact .of_eq rfl rfl rfl
    · exact .refl _
  | retire => exact View.nudged_retire (hne _ rfl)
  | conceive | discard | abandon | crown | launch | reap =>
    exact .of_eq (record_of_writes rfl (hne _ rfl))

/-- A process that is running stays so until it takes itself off its CPU. -/
theorem running_apply (h : a.Enabled v) (hrunning : (v.record i).stage = .running)
    (hi : a.moves? ≠ some i) : ((a.apply P v).record i).stage = .running := by
  rw [(nudged_apply (P := P) h hi).stage_eq, hrunning]
  rw [hrunning]
  nofun

end Act

end FeedbackQueue
