import FeedbackQueue.Proofs.Lineage

/-!
# No lost wakeups

A process that waits for a child sleeps on itself.  A child can become one that it could reap in
three ways: by its CPU being taken back after its exit, by the exit of its former parent while it
is already off its CPU, and by both, in either order.  In a disciplined run each of them wakes the
parent at once, so whoever waits has a child, and none that could be reaped.

## Main definitions

* `View.Waits` : a process sleeps on itself.
* `View.Justified` : whoever waits has reason to.

## Main statements

* `Act.justified_apply` : acts wake whom they give a child to reap.
* `Machine.justified_of_reaches` : nobody waits in vain.
-/

namespace FeedbackQueue

namespace View

variable {P : Params} {v w : View} {i j k : Slot} {cpu : Cpu} {now : Nat}

/-- A process sleeps on itself. -/
def Waits (v : View) (i : Slot) : Prop :=
  (v.record i).stage = .sleeping ∧ (v.record i).channel = some (.process (v.record i).pid)

/-- Whoever waits has not been killed, and has children but none to reap. -/
def Justified (v : View) : Prop := ∀ i, v.Waits i →
  (∃ j, v.ChildOf i j) ∧ (v.record i).killed = false ∧ ∀ j, ¬ v.Reapable i j

/-- Who waits after a change from outside did so before, and has not been killed by it. -/
theorem Waits.of_nudged (h : w.Waits i) (hnudged : v.Nudged i w)
    (hpid : (w.record i).pid = (v.record i).pid) :
    v.Waits i ∧ (w.record i).killed = (v.record i).killed := by
  obtain ⟨hstage, hchannel⟩ := h
  obtain ⟨hsame, hkilled⟩ := hnudged.asleep hstage
  refine ⟨⟨hnudged.sleeping hstage, ?_⟩, hkilled⟩
  rw [← hsame, hchannel, hpid]

/-- Nobody waits after having been woken. -/
theorem not_waits_wake : ¬ (v.wake (.process (v.record i).pid)).Waits i := by
  rintro ⟨hstage, hchannel⟩
  obtain ⟨_, _, e⟩ := wake_record_eq (v := v) (c := .process (v.record i).pid) (i := i)
  have hpid : ((v.wake (.process (v.record i).pid)).record i).pid = (v.record i).pid := by rw [e]
  rw [hpid] at hchannel
  unfold wake at hstage hchannel
  dsimp only at hstage hchannel
  split at hstage
  · cases hstage
  · rename_i hsleeps
    rw [if_neg hsleeps] at hchannel
    exact hsleeps (Process.sleepsOn_iff.2 ⟨hstage, hchannel⟩)

/-- A parent does not wait after the CPU of an exited child has been taken back. -/
theorem not_waits_reclaim (hzombie : (v.record j).stage = .zombie)
    (hparent : (v.record j).parent = some i) : ¬ (v.reclaim P cpu j now).Waits i := by
  intro hw
  unfold reclaim at hw
  dsimp only at hw
  rw [mark_record, if_pos hzombie] at hw
  have hw := (hw.of_nudged nudged_sweepIfDue ((calm_sweepIfDue (P := P)).2 i).pid).1
  unfold wakeParent at hw
  rw [hparent] at hw
  exact not_waits_wake hw

/-- The root process does not wait after it has been given an exited child. -/
theorem not_waits_retire (h : v.Sound P) (hroot : v.root = some i) (hij : i ≠ j)
    (hzombie : (v.record k).stage = .zombie) (hparent : (v.record k).parent = some j) :
    ¬ (v.retire P j now).Waits i := by
  intro hw
  have hs := h.wakeParent (v.record j)
  have hroot' : (v.wakeParent (v.record j)).root = some i := wakeParent_root.trans hroot
  have hk : ((v.wakeParent (v.record j)).record k).stage = .zombie ∧
      ((v.wakeParent (v.record j)).record k).parent = some j := by
    have hcalm := (calm_wakeParent (v := v) (p := v.record j)).2 k
    refine ⟨Stage.phase_eq_dead.1 ?_, hcalm.parent.trans hparent⟩
    rw [hcalm.phase, hzombie]
    rfl
  have hrecord : (v.retire P j now).record i =
      ((v.wakeParent (v.record j)).adopt P j).record i := by
    simp [retire, depart, hij]
  generalize v.wakeParent (v.record j) = u at *
  -- the exited child is among those passed on, so the root process is woken
  have hany : ((u.queue (.stage .zombie)).any fun l => (u.record l).parent = some j) = true := by
    refine List.any_eq_true.2 ⟨k, ?_, by simp [hk.2]⟩
    obtain ⟨t, ht, rfl⟩ := hs
    refine (ht.valid.mem_iff _ _).2 ⟨Table.lt_of_stage_eq hk.1, ?_, by simp⟩
    rw [Process.home_of_ne (by rw [hk.1]; simp), hk.1]
  have hadopt : ¬ (u.adopt P j).Waits i := by
    unfold adopt
    dsimp only
    rw [hroot']
    dsimp only
    rw [if_pos hany]
    have hpid : ((u.reparent j (Table.searched.flatMap (u.members P))).record i).pid =
        (u.record i).pid := by
      unfold reparent
      dsimp only
      split <;> rfl
    rw [← hpid]
    exact not_waits_wake
  exact hadopt (by rwa [Waits, ← hrecord])

/-- A child of a process has started. -/
theorem Tree.started_of_child (h : v.Tree) (hj : v.ChildOf i j) : v.Started j := by
  by_contra hnot
  cases hj.2.symm.trans (h.orphan j hnot)

end View

namespace Act

variable {P : Params} {v : View} {a : Act} {i j : Slot} {cpu : Cpu}

/-- A slot that an act writes is neither asleep nor that of an exited process afterwards. -/
theorem stage_of_writes (hj : a.writes? = some j) : ((a.apply P v).record j).stage ≠ .sleeping ∧
    ((a.apply P v).record j).stage ≠ .zombie := by
  cases a <;> cases hj
  case conceive => simp [apply, View.conceive_record, Process.conceive]
  case discard => simp [apply, View.discard_record]
  case abandon => simp [apply, View.abandon_record]
  case crown => simp [apply, View.crown_record]
  case launch => simp [apply, View.launch_record]
  case reap => simp [apply, View.reap_record]

/-- Children stay with a parent that neither reaps nor exits. -/
theorem childOf_apply (h : a.Enabled v) (ht : v.Tree) (hj : v.ChildOf i j)
    (hreap : ∀ cpu k, a ≠ .reap cpu i k)
    (hretire : ∀ cpu k now, a = .retire cpu k now → v.Sound P ∧ k ≠ i) :
    (a.apply P v).ChildOf i j := by
  rcases a.kinds with hcalm | ⟨k, hk⟩ | ⟨cpu, k, now, rfl⟩
  · have hcalm := (calm_apply (P := P) h hcalm).2 j
    refine ⟨?_, hcalm.parent.trans hj.2⟩
    rw [ne_eq, ← Stage.phase_eq_free, hcalm.phase, Stage.phase_eq_free]
    exact hj.1
  · have hjk : j ≠ k := by
      rintro rfl
      rcases not_started_of_writes h hk with hnot | ⟨cpu, me, rfl⟩
      · exact hnot (ht.started_of_child hj)
      · have hme : me = i := Option.some.inj (h.2.2.1.symm.trans hj.2)
        subst hme
        exact hreap cpu j rfl
    rw [View.ChildOf, record_of_writes hk hjk]
    exact hj
  · obtain ⟨hs, hki⟩ := hretire cpu k now rfl
    obtain ⟨_, _, _, _, _, e, hphase, hheir⟩ := v.retire_record_eq (P := P) k j now
    change (v.retire P k now).ChildOf i j
    rw [View.ChildOf, e]
    refine ⟨fun hunused => hj.1 ?_, ?_⟩
    · rw [← Stage.phase_eq_free, hphase] at hunused
      split at hunused
      · cases hunused
      · exact Stage.phase_eq_free.1 hunused
    · rw [hheir hs, View.heir, if_neg fun hk => hki (Option.some.inj (hk.2.symm.trans hj.2)), hj.2]

/-- Who can be reaped after an act by a parent that waits could be reaped before. -/
theorem reapable_of_apply (h : a.Enabled v) (hw : (a.apply P v).Waits i)
    (hj : (a.apply P v).Reapable i j)
    (hretire : ∀ cpu k now, a = .retire cpu k now → v.Sound P ∧ k ≠ i) : v.Reapable i j := by
  obtain ⟨hzombie, hparent, hfree⟩ := hj
  rcases a.kinds with hcalm | ⟨k, hk⟩ | ⟨cpu, k, now, rfl⟩
  · -- a calm act lets nobody exit: a child became one to reap if it lost its CPU
    have hcalm := (calm_apply (P := P) h hcalm).2 j
    have hzombie' : (v.record j).stage = .zombie := by
      rw [← Stage.phase_eq_dead, ← hcalm.phase, Stage.phase_eq_dead]
      exact hzombie
    have hparent' : (v.record j).parent = some i := hcalm.parent.symm.trans hparent
    refine ⟨hzombie', hparent', ?_⟩
    rintro ⟨cpu, hcpu⟩
    by_cases hreclaim : ∃ now, a = .reclaim cpu j now
    · obtain ⟨now, rfl⟩ := hreclaim
      exact View.not_waits_reclaim hzombie' hparent' hw
    · refine hfree ⟨cpu, marker_apply h hcpu ?_⟩
      rintro k now rfl
      have hk : k = j := Option.some.inj (h.symm.trans hcpu)
      subst hk
      exact hreclaim ⟨now, rfl⟩
  · -- what is written is no exited process
    have hjk : j ≠ k := by
      rintro rfl
      exact (stage_of_writes hk).2 hzombie
    have hmarker : (a.apply P v).marker = v.marker := by
      refine (quiet_apply h ?_).1
      cases a <;> first | rfl | cases hk
    rw [record_of_writes hk hjk] at hzombie hparent
    refine ⟨hzombie, hparent, ?_⟩
    rw [View.Marked, ← hmarker]
    exact hfree
  · obtain ⟨hs, hki⟩ := hretire cpu k now rfl
    obtain ⟨_, _, _, _, _, e, hphase, hheir⟩ := v.retire_record_eq (P := P) k j now
    have hfree' : ¬ v.Marked j := by
      have hmarker : (v.retire P k now).marker = v.marker := View.retire_marker
      rw [View.Marked, ← hmarker]
      exact hfree
    have hjk : j ≠ k := by
      rintro rfl
      exact hfree' ⟨cpu, h.1⟩
    have hzombie' : (v.record j).stage = .zombie := by
      rw [if_neg hjk] at hphase
      rw [← Stage.phase_eq_dead, ← hphase, Stage.phase_eq_dead]
      exact (congrArg Process.stage e).symm.trans hzombie
    have hparent' : v.heir k j = some i :=
      (hheir hs).symm.trans ((congrArg Process.parent e).symm.trans hparent)
    -- a child of the exiting process goes to the root process, which would be awake
    unfold View.heir at hparent'
    split at hparent'
    · exact absurd hw (View.not_waits_retire hs hparent' (Ne.symm hki) hzombie' (‹_ ∧ _›).2)
    · exact ⟨hzombie', hparent', hfree'⟩

theorem killed_of_leaves (h : a.leaves? = some (cpu, i)) :
    ((a.apply P v).record i).killed = (v.record i).killed := by
  have hleave : ∀ now (f : Process → Process), (∀ p, (f p).killed = p.killed) →
      ((v.leave P i now f).record i).killed = (v.record i).killed := by
    intro now f hf
    obtain ⟨_, _, e, -⟩ := (v.record i).charge_eq P.budget now
    rw [View.leave_record, Function.update_self, e]
    exact hf _
  cases a with
  | await | park | yield =>
    cases h
    rw [apply]
    refine hleave _ _ fun _ => ?_
    rfl
  | _ => cases h

/-- **How a process comes to be asleep.**  Whoever sleeps after an act has slept before, on the same
channel, unless the act takes it off its CPU; and the act has not killed it. -/
theorem asleep_apply (h : a.Enabled v) (hi : ((a.apply P v).record i).stage = .sleeping) :
    ((a.apply P v).record i).killed = (v.record i).killed ∧
      ((v.record i).stage = .sleeping ∧ ((a.apply P v).record i).channel = (v.record i).channel ∧
        a.moves? ≠ some i ∨ ∃ cpu, a.leaves? = some (cpu, i)) := by
  by_cases hmoves : a.moves? = some i
  · cases a with
    | await cpu | park cpu =>
      cases hmoves
      exact ⟨killed_of_leaves (show _ = some (cpu, _) from rfl), .inr ⟨cpu, rfl⟩⟩
    | yield =>
      cases hmoves
      simp [apply, View.leave_record, Process.bill] at hi
    | dispatch =>
      cases hmoves
      simp [apply, View.dispatch, Process.dispatch] at hi
    | retire cpu j now =>
      cases hmoves
      obtain ⟨_, _, _, _, _, e, hphase, -⟩ := v.retire_record_eq (P := P) i i now
      rw [if_pos rfl, Stage.phase_eq_dead] at hphase
      cases hphase.symm.trans ((congrArg Process.stage e).symm.trans hi)
    | _ =>
      refine absurd hi (stage_of_writes ?_).1
      exact hmoves
  · have hnudged := nudged_apply (P := P) h hmoves
    obtain ⟨hchannel, hkilled⟩ := hnudged.asleep hi
    exact ⟨hkilled, .inl ⟨hnudged.sleeping hi, hchannel, hmoves⟩⟩

/-- Who waits after an act did so before, unless it has just begun to. -/
theorem waits_of_apply (h : a.Enabled v) (hw : (a.apply P v).Waits i)
    (hpark : ∀ cpu pid now, a ≠ .park cpu i (.process pid) now) :
    (∃ cpu now, a = .await cpu i now) ∨
      a.moves? ≠ some i ∧ v.Waits i ∧ ((a.apply P v).record i).killed = (v.record i).killed := by
  rcases (asleep_apply h hw.1).2 with ⟨hsleeping, -, hi⟩ | ⟨cpu, hleaves⟩
  · refine .inr ⟨hi, hw.of_nudged (nudged_apply h hi) ?_⟩
    have hstarted : v.Started i := by simp [View.Started, hsleeping]
    refine (started_apply h hstarted fun j hj => ?_).2
    rintro rfl
    refine hi ?_
    cases a <;> cases hj <;> rfl
  · refine .inl ?_
    cases a with
    | await cpu me now =>
      cases hleaves
      exact ⟨cpu, now, rfl⟩
    | park cpu j channel now =>
      cases hleaves
      have hchannel := hw.2
      simp only [apply, View.leave_record, Function.update_self, Process.bill,
        Option.some.injEq] at hchannel
      exact absurd (by rw [hchannel]) (hpark cpu _ now)
    | yield cpu j now =>
      cases hleaves
      have hsleeping := hw.1
      simp [apply, View.leave_record, Process.bill] at hsleeping
    | _ => cases hleaves

/-- Acts wake whom they give a child to reap. -/
theorem justified_apply (hj : v.Justified) (ht : v.Tree) (h : a.Enabled v)
    (hpark : ∀ cpu i pid now, a ≠ .park cpu i (.process pid) now)
    (hreap : ∀ cpu me k, a = .reap cpu me k → (v.record me).stage = .running)
    (hretire : ∀ cpu k now, a = .retire cpu k now → v.Sound P) : (a.apply P v).Justified := by
  intro i hw
  rcases waits_of_apply h hw fun cpu => hpark cpu i with ⟨cpu, now, rfl⟩ | ⟨hmoves, hv, hkilled⟩
  · -- who has just gone to sleep has looked for children at the same time
    have hpending := h
    obtain ⟨-, -, ⟨j, hchild⟩, halive, hnone⟩ := hpending
    refine ⟨⟨j, childOf_apply h ht hchild nofun nofun⟩, ?_, fun k hk => ?_⟩
    · obtain ⟨_, _, e, -⟩ := (v.record i).charge_eq P.budget now
      simp only [apply, View.leave_record, Function.update_self, Process.bill, e]
      exact halive
    · exact hnone k (reapable_of_apply h hw hk nofun)
  · -- who slept before has neither been killed nor been given a child to reap
    obtain ⟨⟨j, hchild⟩, halive, hnone⟩ := hj i hv
    have hother : ∀ cpu k now, a = .retire cpu k now → v.Sound P ∧ k ≠ i := by
      rintro cpu k now rfl
      refine ⟨hretire cpu k now rfl, ?_⟩
      rintro rfl
      exact hmoves rfl
    refine ⟨⟨j, childOf_apply h ht hchild ?_ hother⟩, hkilled.trans halive, fun k hk => ?_⟩
    · rintro cpu k rfl
      cases (hreap cpu i k rfl).symm.trans hv.1
    · exact hnone k (reapable_of_apply h hw hk hother)

end Act

namespace Machine

variable {P : Params} {m m₁ : Machine P} {e : Event} {p : Progress}

/-- Nobody waits in vain after a considerate event. -/
theorem justified_of_perform_eq_ok (h : m.Regular) (hj : m.table.view.Justified)
    (hc : m.Considerate e) (hperform : m.perform e = .ok (p, m₁)) :
    m₁.table.view.Justified := by
  obtain ⟨-, -, acts, hfollows, hscript⟩ := of_perform_eq_ok h.orderly hperform
  have hsound : m.table.view.Sound P := ⟨m.table, h.orderly.sound, rfl⟩
  have hone : ∀ {a : Act} {v w : View}, v.Justified → v.Tree → v.Follows P [a] w →
      (∀ cpu i pid now, a ≠ .park cpu i (.process pid) now) → (∀ cpu me k, a ≠ .reap cpu me k) →
      (∀ cpu k now, a = .retire cpu k now → v.Sound P) → w.Justified := by
    rintro a v w hv ht ⟨he, hw⟩ hpark hreap hretire
    rw [hw]
    exact Act.justified_apply hv ht he hpark (fun cpu me k ha => absurd ha (hreap cpu me k)) hretire
  have hneutral : ∀ {acts : List Act} {v w : View}, v.Justified → v.Tree → v.Follows P acts w →
      (∀ a ∈ acts, a.isNeutral = true) → w.Justified := by
    intro acts v w hv ht hf hacts
    refine (hf.preserves (I := fun w => w.Tree ∧ w.Justified) ⟨ht, hv⟩ ?_).2
    rintro u a ha he ⟨hu, hj⟩
    have hne : ∀ b : Act, b.isNeutral = false → a ≠ b := by
      rintro b hb rfl
      rw [hacts a ha] at hb
      cases hb
    have hfollows : u.Follows P [a] (a.apply P u) := ⟨he, rfl⟩
    refine ⟨Act.tree_of_neutral hu hfollows (by simp [hacts a ha]), ?_⟩
    exact Act.justified_apply hj hu he (fun _ _ _ _ => hne _ rfl)
      (fun _ _ _ hb => absurd hb (hne _ rfl)) fun _ _ _ hb => absurd hb (hne _ rfl)
  cases Event.course_of_script hscript with
  | neutral hacts => exact hneutral hj h.tree hfollows hacts
  | fork _ hrest => exact hneutral hj h.tree hfollows.2 hrest
  | launch | surrender | dispatch | reclaim =>
    exact hone hj h.tree hfollows nofun nofun nofun
  | close => exact hfollows ▸ hj
  | @exit cpu i j now =>
    have hi := hfollows.1.1
    have hsurrender : (m.table.view.surrender i).Justified :=
      hone hj h.tree (a := .surrender cpu i) ⟨hfollows.1, rfl⟩ nofun nofun nofun
    have htree : (m.table.view.surrender i).Tree :=
      h.tree.calm (Act.calm_apply (P := P) (a := .surrender cpu i) hfollows.1 rfl)
    exact hone hsurrender htree hfollows.2 nofun nofun fun _ _ _ _ =>
      hsound.surrender (h.orderly.sound.valid.marker_lt cpu i hi)
  | retire => exact hone hj h.tree hfollows nofun nofun fun _ _ _ _ => hsound
  | @reap cpu me i _ hcpu =>
    obtain ⟨he, hview⟩ := hfollows
    rw [hview]
    refine Act.justified_apply hj h.tree he nofun ?_ nofun
    rintro cpu' me' k ⟨⟩
    obtain ⟨j, hw⟩ := hc.disciplined.works cpu hcpu
    have hj : j = me := Option.some.inj (hw.marker.symm.trans he.1)
    exact hj ▸ hw.running
  | @leave a cpu i _ hcpu hleaves _ hchannel =>
    refine hone hj h.tree hfollows ?_ ?_ ?_
    · rintro cpu' i' pid now rfl
      cases hleaves
      obtain ⟨now', he⟩ := hchannel pid now rfl
      exact hc.channel cpu pid now' he
    · rintro cpu' me k rfl
      cases hleaves
    · rintro cpu' k now rfl
      cases hleaves

/-- Files from outside change nothing for those who wait. -/
theorem justified_of_grants {i : Slot} {files : Multiset FileHandle} {t : Table P}
    (hm : m.table.Orderly) (hj : m.table.view.Justified) (hgrants : m.Grants i files t) :
    t.view.Justified := by
  choose files' cwd hrecord using hgrants.exists_equip hm
  have hmarker : t.view.marker = m.table.view.marker := (hgrants.quiet hm).1
  intro k hw
  simp only [View.Waits, View.ChildOf, View.Reapable, View.Marked, Table.view_record, hrecord,
    hmarker] at hw ⊢
  exact hj k hw

/-- **Nobody waits in vain.**  In a disciplined run in which only a wait sleeps on a process,
whoever sleeps on itself has a child, has not been killed, and has no child that it could reap: a
child that has exited is still on a CPU. -/
theorem justified_of_reaches {t : Table P} {now : Nat} (hcreate : Table.create P now = .ok (.ok t))
    (hrun : Reaches Considerate { table := t } m) {i : Slot}
    (hsleeping : (m.table.record i).stage = .sleeping)
    (hchannel : (m.table.record i).channel = some (.process (m.table.record i).pid)) :
    (∃ j, (m.table.record j).stage ≠ .unused ∧ (m.table.record j).parent = some i) ∧
      (m.table.record i).killed = false ∧
      ∀ j, (m.table.record j).parent = some i → (m.table.record j).stage = .zombie →
        ∃ cpu, m.table.occupant? cpu = some j := by
  have hfresh : t.view.Justified := by
    rw [(Table.orderly_of_create hcreate).2]
    rintro i ⟨hs, -⟩
    cases hs
  have hregular : ∀ {m}, Reaches Considerate { table := t } m → m.Regular := fun hrun =>
    (hrun.mono fun _ _ => Considerate.disciplined).regular (regular_of_create hcreate)
  have hjustified : m.table.view.Justified :=
    hrun.invariant (I := fun m => m.table.view.Justified) hfresh
      (fun _ _ _ _ hrun hj _ hc hperform =>
        justified_of_perform_eq_ok (hregular hrun) hj hc hperform)
      fun _ _ _ _ hrun hj hgrants => justified_of_grants (hregular hrun).orderly hj hgrants
  obtain ⟨hchild, hkilled, hnone⟩ := hjustified i ⟨hsleeping, hchannel⟩
  refine ⟨hchild, hkilled, fun j hparent hzombie => ?_⟩
  by_contra hfree
  exact hnone j ⟨hzombie, hparent, hfree⟩

/-- The root process waits for a child, which closes its file in its exit. -/
theorem justified_of_waiting : ∃ (t : Table ⟨2, 0, 1, 1, 1, true⟩) (m : Machine _),
    Table.create _ 0 = .ok (.ok t) ∧ Reaches Considerate { table := t } m ∧
      ⟨some 2, .closing 0 .exit ⟨8⟩ []⟩ ∈ m.tasks ∧ (m.table.record 0).stage = .sleeping ∧
      (m.table.record 0).channel = some (.process (m.table.record 0).pid) ∧
      ∃ j, (m.table.record j).stage ≠ .unused ∧ (m.table.record j).parent = some 0 := by
  obtain ⟨t, m, hcreate, hrun, hcloses, -, -, hsleeping, hpid, hone⟩ := exists_waiting
  have hchannel : (m.table.record 0).channel = some (.process (m.table.record 0).pid) := by
    rw [hpid]
    exact hone
  exact ⟨t, m, hcreate, hrun, hcloses, hsleeping, hchannel,
    (justified_of_reaches hcreate hrun hsleeping hchannel).1⟩

end Machine

end FeedbackQueue
