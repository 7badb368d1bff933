import FeedbackQueue.Proofs.Discipline
import FeedbackQueue.Proofs.Reports
import Mathlib.Logic.Relation

/-!
# Lineage

In disciplined runs the parent pointers form a tree of living processes with the root process at its
root: a child starts while its parent runs, an exit takes a leaf or gives its children to the root
process, and a process that is reaped is nobody's parent.

## Main definitions

* `View.Tree` : the parent pointers form a tree.
* `Table.Kinship` : what this means for the records and for what is reported of them.

## Main statements

* `Act.tree_apply` : acts grow and prune the tree.
* `Machine.kinship_of_reaches` : disciplined runs keep it.
-/

namespace FeedbackQueue

namespace View

variable {P : Params} {v w : View} {i j : Slot}

/-- A slot holds a process that has started and has not exited. -/
def Alive (v : View) (i : Slot) : Prop := (v.record i).stage.phase = .alive

theorem Alive.started (h : v.Alive i) : v.Started i := by
  rw [started_iff, show (v.record i).stage.phase = .alive from h]
  exact ⟨nofun, nofun⟩

theorem alive_of_running (h : (v.record i).stage = .running) : v.Alive i := by
  rw [Alive, h]
  rfl

theorem alive_iff :
    v.Alive i ↔ (v.record i).stage = .runnable ∨ (v.record i).stage = .running ∨
      (v.record i).stage = .sleeping := by
  unfold Alive
  cases (v.record i).stage <;> simp [Stage.phase]

/-- A slot is a child of another. -/
def Child (v : View) (i j : Slot) : Prop := (v.record i).parent = some j

/-- The parent pointers form a tree of living processes, with the exited among its leaves. -/
structure Tree (v : View) : Prop where
  /-- Who has not started has no parent. -/
  orphan : ∀ i, ¬ v.Started i → (v.record i).parent = none
  /-- The root process lives and has no parent. -/
  root : ∀ r, v.root = some r → v.Alive r ∧ (v.record r).parent = none
  /-- A parent lives. -/
  parent : ∀ i j, v.Child i j → v.Alive j
  /-- The root process is an ancestor of everybody. -/
  lineage : ∀ i, v.Started i → ∃ r, v.root = some r ∧ Relation.ReflTransGen v.Child i r

/-- Everybody but the root process has a parent. -/
theorem Tree.exists_parent (h : v.Tree) (hi : v.Started i) (hroot : v.root ≠ some i) :
    ∃ j, v.Child i j := by
  obtain ⟨r, hr, hlineage⟩ := h.lineage i hi
  rcases hlineage.cases_head with rfl | ⟨j, hj, -⟩
  · exact absurd hr hroot
  · exact ⟨j, hj⟩

/-- A change that leaves parents alone, and lets nobody start or exit. -/
theorem Tree.congr (h : v.Tree) (hstarted : ∀ i, w.Started i ↔ v.Started i)
    (halive : ∀ i, w.Alive i ↔ v.Alive i) (hparent : ∀ i, (w.record i).parent = (v.record i).parent)
    (hroot : w.root = v.root) : w.Tree := by
  have hchild : w.Child = v.Child := by
    funext i j
    rw [Child, Child, hparent]
  refine ⟨fun i hi => ?_, fun r hr => ?_, fun i j hj => ?_, fun i hi => ?_⟩
  · rw [hparent]
    exact h.orphan i (mt (hstarted i).2 hi)
  · rw [halive, hparent]
    exact h.root r (hroot ▸ hr)
  · rw [halive]
    exact h.parent i j (hchild ▸ hj)
  · rw [hroot, hchild]
    exact h.lineage i ((hstarted i).1 hi)

theorem Tree.calm (h : v.Tree) (hcalm : v.Calm w) : w.Tree := by
  refine h.congr (fun i => ?_) (fun i => ?_) (fun i => (hcalm.2 i).parent) hcalm.1
  · rw [started_iff, started_iff, (hcalm.2 i).phase]
  · rw [Alive, Alive, (hcalm.2 i).phase]

/-- A change of one slot in which nobody lives: it is left free or with an embryo, or a child of a
living process starts in it. -/
theorem Tree.of_update {p : Process} (h : v.Tree) (hi : ¬ v.Alive i)
    (hrecord : w.record = Function.update v.record i p) (hroot : w.root = v.root)
    (hp : (p.stage = .unused ∨ p.stage = .embryo) ∧ p.parent = none ∨
      p.stage.phase = .alive ∧ ∃ j, p.parent = some j ∧ v.Alive j) : w.Tree := by
  have hsame : ∀ j, j ≠ i → w.record j = v.record j := by
    intro j hj
    rw [hrecord, Function.update_of_ne hj]
  have hself : w.record i = p := by rw [hrecord, Function.update_self]
  have hne : ∀ j, v.Alive j → j ≠ i := by
    rintro j hj rfl
    exact hi hj
  have halive : ∀ j, v.Alive j → w.Alive j := by
    intro j hj
    rw [Alive, hsame j (hne j hj)]
    exact hj
  -- Parents live, so no way up to the root process leads through the slot.
  have hlineage : ∀ {j r}, Relation.ReflTransGen v.Child j r → j ≠ i →
      Relation.ReflTransGen w.Child j r := by
    intro j r hj
    induction hj using Relation.ReflTransGen.head_induction_on with
    | refl => exact fun _ => .refl
    | head hk _ ih =>
      intro hji
      refine .head ?_ (ih (hne _ (h.parent _ _ hk)))
      rw [Child, hsame _ hji]
      exact hk
  refine ⟨fun j hj => ?_, fun r hr => ?_, fun j k hk => ?_, fun j hj => ?_⟩
  · by_cases hji : j = i
    · subst j
      rw [hself]
      rcases hp with ⟨-, hnone⟩ | ⟨hphase, -⟩
      · exact hnone
      · rw [← hself] at hphase
        exact absurd (Alive.started hphase) hj
    · rw [Started, hsame j hji] at hj
      rw [hsame j hji]
      exact h.orphan j hj
  · obtain ⟨hr', hnone⟩ := h.root r (hroot ▸ hr)
    refine ⟨halive r hr', ?_⟩
    rw [hsame r (hne r hr')]
    exact hnone
  · by_cases hji : j = i
    · subst j
      rw [Child, hself] at hk
      rcases hp with ⟨-, hnone⟩ | ⟨-, k', hk', hlives⟩
      · cases hk.symm.trans hnone
      · cases hk.symm.trans hk'
        exact halive k hlives
    · rw [Child, hsame j hji] at hk
      exact halive k (h.parent j k hk)
  · rw [hroot]
    by_cases hji : j = i
    · subst j
      rw [Started, hself] at hj
      rcases hp with ⟨hstage, -⟩ | ⟨-, k, hk, hlives⟩
      · rcases hstage with hstage | hstage <;> simp [hstage] at hj
      · obtain ⟨r, hr, hup⟩ := h.lineage k hlives.started
        refine ⟨r, hr, .head ?_ (hlineage hup (hne k hlives))⟩
        rw [Child, hself]
        exact hk
    · rw [Started, hsame j hji] at hj
      obtain ⟨r, hr, hup⟩ := h.lineage j hj
      exact ⟨r, hr, hlineage hup hji⟩

/-- The start of the root process. -/
theorem Tree.crown {name : String} {space : AddressSpace} (h : v.Tree) (hroot : v.root = none) :
    (v.crown i name space).Tree := by
  have hnone : ∀ j, ¬ v.Started j := by
    intro j hj
    obtain ⟨r, hr, -⟩ := h.lineage j hj
    rw [hroot] at hr
    cases hr
  have hrecord : ∀ j, j ≠ i → (v.crown i name space).record j = v.record j := by
    intro j hj
    rw [crown_record, Function.update_of_ne hj]
  have hself : (v.crown i name space).record i =
      ((v.record i).crown name space).enter .runnable := by
    rw [crown_record, Function.update_self]
  have hparent : ∀ j, ((v.crown i name space).record j).parent = none := by
    intro j
    by_cases hj : j = i
    · subst j
      rw [hself]
      simpa only [Process.enter, Process.crown, Process.rename] using h.orphan i (hnone i)
    · rw [hrecord j hj]
      exact h.orphan j (hnone j)
  have halive : (v.crown i name space).Alive i := by
    rw [Alive, hself]
    rfl
  refine ⟨fun j _ => hparent j, ?_, fun j k hk => ?_, fun j hj => ?_⟩
  · rintro r ⟨⟩
    exact ⟨halive, hparent i⟩
  · rw [Child, hparent] at hk
    cases hk
  · refine ⟨i, rfl, ?_⟩
    by_cases hji : j = i
    · rw [hji]
    · rw [Started, hrecord j hji] at hj
      exact absurd hj (hnone j)

/-- The start of a child of a living process. -/
theorem Tree.launch {plan : Blueprint} {space : AddressSpace} {files : List FileHandle}
    {cwd : Option FileHandle} (h : v.Tree) (hi : (v.record i).stage = .embryo)
    (hplan : v.Alive plan.parent) : (v.launch i plan space files cwd).Tree :=
  h.of_update (mt Alive.started fun hs => hs.2 hi) launch_record rfl
    (.inr ⟨rfl, plan.parent, rfl, hplan⟩)

/-- The reaping of an exited process, which is nobody's parent. -/
theorem Tree.reap (h : v.Tree) (hi : (v.record i).stage = .zombie) : (v.reap i).Tree := by
  refine h.of_update ?_ reap_record rfl (.inl ⟨.inl rfl, rfl⟩)
  rw [Alive, hi]
  nofun

/-- An exit of a process other than the root process, whose children go to that. -/
theorem Tree.retire {now : Nat} (h : v.Tree) (hs : v.Sound P) (hi : v.Alive i)
    (hroot : v.root ≠ some i) : (v.retire P i now).Tree := by
  obtain ⟨r, hr, -⟩ := h.lineage i hi.started
  have hri : r ≠ i := by
    rintro rfl
    exact hroot hr
  have hparent : ∀ j, ((v.retire P i now).record j).parent =
      if (v.record j).parent = some i then some r else (v.record j).parent := by
    intro j
    obtain ⟨parent, _, _, _, _, e, -, hheir⟩ := v.retire_record_eq (P := P) i j now
    rw [e, ← hr]
    refine (hheir hs).trans (if_congr (and_iff_right_of_imp fun hj hunused => ?_) rfl rfl)
    rw [h.orphan j fun hstarted => hstarted.1 hunused] at hj
    cases hj
  have hphase : ∀ j, ((v.retire P i now).record j).stage.phase =
      if j = i then .dead else (v.record j).stage.phase := by
    intro j
    obtain ⟨_, _, _, _, _, e, hphase, -⟩ := v.retire_record_eq (P := P) i j now
    rw [e]
    exact hphase
  have hstarted : ∀ j, (v.retire P i now).Started j ↔ v.Started j := by
    intro j
    rw [started_iff, hphase]
    split
    · subst j
      exact iff_of_true ⟨nofun, nofun⟩ hi.started
    · rw [started_iff]
  have halive : ∀ j, (v.retire P i now).Alive j ↔ j ≠ i ∧ v.Alive j := by
    intro j
    rw [Alive, hphase]
    by_cases hj : j = i <;> simp [hj, Alive]
  have hlineage : ∀ {j}, Relation.ReflTransGen v.Child j r →
      Relation.ReflTransGen (v.retire P i now).Child j r := by
    intro j hj
    induction hj using Relation.ReflTransGen.head_induction_on with
    | refl => exact .refl
    | @head a b hb _ ih =>
      -- A step to the exiting process becomes a step to the root process.
      by_cases hbi : b = i
      · refine .single ?_
        rw [Child, hparent, if_pos (hb.trans (by rw [hbi]))]
      · refine .head ?_ ih
        rw [Child, hparent, if_neg]
        · exact hb
        · exact fun ha => hbi (Option.some.inj (hb.symm.trans ha))
  refine ⟨fun j hj => ?_, fun r' hr' => ?_, fun j k hk => ?_, fun j hj => ?_⟩
  · have hnone := h.orphan j (mt (hstarted j).2 hj)
    rw [hparent, hnone, if_neg nofun]
  · rw [retire_root, hr] at hr'
    cases hr'
    obtain ⟨hr', hnone⟩ := h.root r hr
    exact ⟨(halive r).2 ⟨hri, hr'⟩, by rw [hparent, hnone, if_neg nofun]⟩
  · rw [Child, hparent] at hk
    split at hk
    · cases hk
      exact (halive r).2 ⟨hri, (h.root r hr).1⟩
    · refine (halive k).2 ⟨?_, h.parent j k hk⟩
      rintro rfl
      exact absurd hk ‹_›
  · obtain ⟨r', hr', hj'⟩ := h.lineage j ((hstarted j).1 hj)
    rw [hr] at hr'
    cases hr'
    exact ⟨r, by rw [retire_root, hr], hlineage hj'⟩

end View

namespace Act

variable {P : Params} {v : View} {a : Act}

/-- Every act keeps the tree: parents of children that start are alive, and the root process does
not exit. -/
theorem tree_apply (h : v.Tree) (he : a.Enabled v)
    (hlaunch : ∀ i plan space files cwd, a = .launch i plan space files cwd → v.Alive plan.parent)
    (hretire : ∀ cpu i now, a = .retire cpu i now → v.Sound P ∧ v.root ≠ some i) :
    (a.apply P v).Tree := by
  rcases a.kinds with hcalm | ⟨i, hi⟩ | ⟨cpu, i, now, rfl⟩
  · exact h.calm (calm_apply he hcalm)
  · cases a with
    | conceive i now =>
      exact h.of_update (mt View.Alive.started fun hs => hs.1 he.2) View.conceive_record rfl
        (.inl ⟨.inr rfl, rfl⟩)
    | discard i =>
      exact h.of_update (mt View.Alive.started fun hs => hs.2 he) View.discard_record rfl
        (.inl ⟨.inl rfl, rfl⟩)
    | abandon i =>
      exact h.of_update (mt View.Alive.started fun hs => hs.2 he) View.abandon_record rfl
        (.inl ⟨.inl rfl, rfl⟩)
    | crown i name space => exact h.crown he.1
    | launch i plan space files cwd => exact h.launch he (hlaunch _ _ _ _ _ rfl)
    | reap cpu me i => exact h.reap he.2.1
    | _ => cases hi
  · obtain ⟨hs, hroot⟩ := hretire cpu i now rfl
    exact h.retire hs (View.alive_of_running he.2) hroot

/-- Neutral acts keep the tree. -/
theorem tree_of_neutral {w : View} {acts : List Act} (h : v.Tree) (hfollows : v.Follows P acts w)
    (hacts : ∀ a ∈ acts, a.isNeutral = true) : w.Tree := by
  refine hfollows.preserves (I := View.Tree) h fun u a ha he hu => tree_apply hu he ?_ ?_
  · rintro i plan space files cwd rfl
    cases hacts _ ha
  · rintro cpu i now rfl
    cases hacts _ ha

end Act

namespace Machine

variable {P : Params} {m m₁ : Machine P} {e : Event} {p : Progress}

/-- Disciplined events keep the tree. -/
theorem tree_of_perform_eq_ok (hm : m.table.Orderly) (ha : m.Attended) (h : m.table.view.Tree)
    (hd : m.Disciplined e) (hcan : m.CanHappen e) (hperform : m.perform e = .ok (p, m₁)) :
    m₁.table.view.Tree := by
  obtain ⟨-, -, acts, hfollows, hscript⟩ := of_perform_eq_ok hm hperform
  have hsound : m.table.view.Sound P := ⟨m.table, hm.sound, rfl⟩
  have hcalm : ∀ {a : Act} {v w : View}, v.Tree → a.Enabled v → a.isCalm = true →
      w = a.apply P v → w.Tree := fun hv he hc hw => hw ▸ hv.calm (Act.calm_apply he hc)
  cases Event.course_of_script hscript with
  | neutral hacts => exact Act.tree_of_neutral h hfollows hacts
  | fork _ hrest => exact Act.tree_of_neutral h hfollows.2 hrest
  | @launch i plan space files cwd _ hplan =>
    obtain ⟨he, hview⟩ := hfollows
    rw [hview]
    refine h.launch he ?_
    cases e with
    | start => cases hplan
    | answer task reply clock =>
      obtain ⟨cpu, hw⟩ := ha.plans task hcan plan hplan
      exact View.alive_of_running hw.running
  | surrender | dispatch | reclaim => exact hcalm h hfollows.1 rfl hfollows.2
  | close => exact hfollows ▸ h
  | @exit cpu i j now =>
    obtain ⟨⟨hi, hroot⟩, ⟨hj, hrunning⟩, hview⟩ := hfollows
    have hij : i = j := Option.some.inj (hi.symm.trans hj)
    subst hij
    have hsurrender : (m.table.view.surrender i).Tree :=
      hcalm h (a := .surrender cpu i) ⟨hi, hroot⟩ rfl rfl
    rw [hview]
    exact hsurrender.retire (hsound.surrender (hm.sound.valid.marker_lt cpu i hi))
      (View.alive_of_running hrunning) hroot
  | @retire task _ cpu i _ _ _ he' hcloses =>
    obtain ⟨⟨hi, hrunning⟩, hview⟩ := hfollows
    subst he'
    obtain ⟨k, hk, hroot⟩ := ha.closing task hcan cpu hcloses
    have hki : k = i := Option.some.inj (hk.marker.symm.trans hi)
    subst hki
    rw [hview]
    exact h.retire hsound (View.alive_of_running hrunning) hroot
  | reap =>
    obtain ⟨he, hview⟩ := hfollows
    rw [hview]
    exact h.reap he.2.1
  | @leave a _ _ _ _ hleaves =>
    refine hcalm h hfollows.1 ?_ hfollows.2
    cases a <;> first | rfl | cases hleaves

/-- What disciplined runs keep. -/
structure Regular (m : Machine P) : Prop where
  orderly : m.table.Orderly
  started : m.table.view.AllStarted
  attended : m.Attended
  tree : m.table.view.Tree

theorem tree_fresh {now : Nat} : (View.fresh P now).Tree :=
  ⟨fun _ _ => rfl, nofun, nofun, fun _ hi => absurd rfl hi.1⟩

theorem regular_of_create {t : Table P} {now : Nat} (hcreate : Table.create P now = .ok (.ok t)) :
    Regular { table := t } := by
  obtain ⟨ht, hview⟩ := Table.orderly_of_create hcreate
  refine ⟨ht, ?_, attended_of_tasks rfl, ?_⟩
  · rw [hview]
    exact allStarted_fresh
  · rw [hview]
    exact tree_fresh

theorem Regular.of_perform_eq_ok (h : m.Regular) (hd : m.Disciplined e) (hcan : m.CanHappen e)
    (hperform : m.perform e = .ok (p, m₁)) : m₁.Regular where
  orderly := (Machine.of_perform_eq_ok h.orderly hperform).1
  started := (turns_of_perform_eq_ok h.orderly h.started hperform).1
  attended := attended_of_perform_eq_ok h.orderly h.attended hd hcan hperform
  tree := tree_of_perform_eq_ok h.orderly h.attended h.tree hd hcan hperform

/-- A grant leaves the table regular. -/
theorem Regular.of_grants {i : Slot} {files : Multiset FileHandle} {t : Table P} (h : m.Regular)
    (hgrants : m.Grants i files t) : Regular { m with table := t } := by
  obtain ⟨ht, files', cwd, hview, -⟩ := hgrants.exists_view h.orderly
  have hcalm := hgrants.calm h.orderly
  have hworks : ∀ {cpu j pid}, m.table.view.Works cpu j pid → t.view.Works cpu j pid :=
    fun hw => hview ▸ hw.equip
  have hroot : t.root = m.table.root := hcalm.1
  refine ⟨ht, hgrants.allStarted h.orderly h.started, ⟨?_, ?_, h.attended.apart⟩,
    h.tree.calm hcalm⟩
  · intro task htask plan hplan
    obtain ⟨cpu, hw⟩ := h.attended.plans task htask plan hplan
    exact ⟨cpu, hworks hw⟩
  · intro task htask cpu hcloses
    obtain ⟨j, hw, hj⟩ := h.attended.closing task htask cpu hcloses
    exact ⟨j, hworks hw, hroot ▸ hj⟩

theorem Reaches.regular (h : Reaches Disciplined m m₁) (hm : m.Regular) : m₁.Regular :=
  h.invariant hm (fun _ _ _ _ _ hm hcan hd hperform => hm.of_perform_eq_ok hd hcan hperform)
    fun _ _ _ _ _ hm hgrants => hm.of_grants hgrants

end Machine

/-! ### Families -/

namespace Table

variable {P : Params} {t : Table P} {i : Slot}

/-- A pid is that of a process that has started and has not exited. -/
def Lives (t : Table P) (pid : Pid) : Prop :=
  ∃ i, (t.record i).pid = pid ∧ (t.record i).stage ∈ [.runnable, .running, .sleeping]

/-- The family of the root process. -/
structure Kinship (t : Table P) : Prop where
  /-- The root process has no parent. -/
  root : ∀ r, t.root = some r → (t.record r).parent = none
  /-- Every other process that has started, exited or not, has one. -/
  parent : ∀ i, (t.record i).stage ∈ [.runnable, .running, .sleeping, .zombie] → t.root ≠ some i →
    ∃ j, (t.record i).parent = some j
  /-- Every parent has started and has not exited. -/
  alive : ∀ i j, (t.record i).parent = some j →
    (t.record j).stage ∈ [.runnable, .running, .sleeping]
  /-- The parents of parents lead to the root process. -/
  lineage : ∀ i, (t.record i).stage ∈ [.runnable, .running, .sleeping, .zombie] →
    ∃ r, t.root = some r ∧ Relation.ReflTransGen (fun i j => (t.record i).parent = some j) i r
  /-- A free slot has no parent. -/
  unused : ∀ i, (t.record i).stage = .unused → (t.record i).parent = none
  /-- An exited process has a parent that can reap it. -/
  zombie : ∀ i, (t.record i).stage = .zombie →
    ∃ j, (t.record i).parent = some j ∧ (t.record j).stage ∈ [.runnable, .running, .sleeping]
  /-- Parents shown in a snapshot live. -/
  snapshot : ∀ now limit, ∃ xs, t.snapshot now limit = .ok xs ∧ ∀ x ∈ xs, t.Lives x.parentPid
  /-- The parent shown in a look-up is a process; and it lives, unless the process found is still
  being built and shows itself. -/
  lookup : ∀ now pid, ∃ x?, t.lookup now pid = .ok x? ∧ ∀ x, x? = some x →
    (∃ j, (t.record j).isLive = true ∧ (t.record j).pid = x.parentPid) ∧
      (t.Lives x.parentPid ∨ x.stage = .embryo ∧ x.parentPid = pid)
  /-- The parent of the process on a CPU lives. -/
  current : ∀ cpu, ∃ pid?, t.currentParentPid? cpu = .ok pid? ∧ ∀ pid, pid? = some pid → t.Lives pid

theorem alive_iff_mem :
    t.view.Alive i ↔ (t.record i).stage ∈ [.runnable, .running, .sleeping] := by
  rw [View.alive_iff]
  simp

theorem started_iff_mem :
    t.view.Started i ↔ (t.record i).stage ∈ [.runnable, .running, .sleeping, .zombie] := by
  rw [View.Started, view_record]
  cases (t.record i).stage <;> simp

theorem closed_of_tree (h : t.view.Tree) : t.Closed := fun i j hj =>
  lt_of_stage_ne (h.parent i j hj).started.1

/-- The parent that is reported of a process that has started lives. -/
theorem lives_reportedParent (h : t.view.Tree) (hi : t.view.Started i) :
    t.Lives (t.reportedParent (t.record i)) := by
  unfold reportedParent
  cases hparent : (t.record i).parent with
  | some j => exact ⟨j, rfl, alive_iff_mem.1 (h.parent i j hparent)⟩
  | none =>
    refine ⟨i, rfl, alive_iff_mem.1 (h.root i ?_).1⟩
    by_contra hroot
    obtain ⟨j, hj⟩ := h.exists_parent hi hroot
    cases hparent.symm.trans hj

theorem kinship_of_tree (h : t.view.Tree) (hs : t.Sound) (hstarted : t.view.AllStarted) :
    t.Kinship where
  root r hr := (h.root r hr).2
  parent i hi hroot := h.exists_parent (started_iff_mem.2 hi) hroot
  alive i j hj := alive_iff_mem.1 (h.parent i j hj)
  lineage i hi := h.lineage i (started_iff_mem.2 hi)
  unused i hi := h.orphan i fun hstarted => hstarted.1 hi
  zombie i hi := by
    have hroot : t.view.root ≠ some i := by
      intro hr
      have halive := (h.root i hr).1
      rw [View.Alive, view_record, hi] at halive
      cases halive
    obtain ⟨j, hj⟩ := h.exists_parent (started_iff_mem.2 (by simp [hi])) hroot
    exact ⟨j, hj, alive_iff_mem.1 (h.parent i j hj)⟩
  snapshot now limit := by
    refine ⟨_, (closed_of_tree h).snapshot_eq_ok limit, fun x hx => ?_⟩
    obtain ⟨p, hp, rfl⟩ := List.mem_map.1 hx
    obtain ⟨hmem, hshown⟩ := List.mem_filter.1 (List.mem_of_mem_take hp)
    obtain ⟨i, -, rfl⟩ := mem_procs_iff.1 hmem
    rw [decide_eq_true_eq] at hshown
    exact lives_reportedParent h hshown
  lookup now pid := by
    rcases (closed_of_tree h).lookup_eq_ok hs now pid with e | ⟨i, hi, rfl, e⟩
    · exact ⟨none, e, nofun⟩
    · refine ⟨_, e, ?_⟩
      rintro x ⟨⟩
      by_cases hstarted : t.view.Started i
      · obtain ⟨j, hpid, hj⟩ := lives_reportedParent h hstarted
        refine ⟨⟨j, ?_, hpid⟩, .inl ⟨j, hpid, hj⟩⟩
        rw [Process.isLive, bne_iff_ne]
        rintro hunused
        simp [hunused] at hj
      · have hembryo : (t.record i).stage = .embryo := by
          by_contra hne
          exact hstarted ⟨hi, hne⟩
        have hself : t.reportedParent (t.record i) = (t.record i).pid := by
          rw [reportedParent, show (t.record i).parent = none from h.orphan i hstarted]
        exact ⟨⟨i, by simpa [Process.isLive] using hi, hself.symm⟩, .inr ⟨hembryo, hself⟩⟩
  current cpu := by
    refine ⟨_, (closed_of_tree h).currentParentPid?_eq_ok hs cpu, fun pid hpid => ?_⟩
    obtain ⟨i, hi, rfl⟩ := Option.map_eq_some_iff.1 hpid
    exact lives_reportedParent h (hstarted i ⟨cpu, hi⟩)

end Table

/-- **Disciplined runs keep the family of the root process together.** -/
theorem Machine.kinship_of_reaches {P : Params} {t : Table P} {m : Machine P} {now : Nat}
    (hcreate : Table.create P now = .ok (.ok t)) (hrun : Reaches Disciplined { table := t } m) :
    m.table.Kinship :=
  have hm := hrun.regular (regular_of_create hcreate)
  Table.kinship_of_tree hm.tree hm.orderly.sound hm.started

/-- A child of the root process closes its file in its exit. -/
theorem Machine.kinship_of_waiting : ∃ (t : Table ⟨2, 0, 1, 1, 1, true⟩) (m : Machine _),
    Table.create _ 0 = .ok (.ok t) ∧ Reaches Disciplined { table := t } m ∧
      ⟨some 2, .closing 0 .exit ⟨8⟩ []⟩ ∈ m.tasks ∧ m.table.root = some 0 ∧
      (m.table.record 1).parent = some 0 ∧ m.table.Kinship := by
  obtain ⟨t, m, hcreate, hrun, hcloses, hroot, hparent, -⟩ := exists_waiting
  have hdisciplined := hrun.mono fun _ _ => Considerate.disciplined
  exact ⟨t, m, hcreate, hdisciplined, hcloses, hroot, hparent,
    kinship_of_reaches hcreate hdisciplined⟩

end FeedbackQueue
