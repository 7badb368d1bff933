import FeedbackQueue.Proofs.Pids
import FeedbackQueue.Proofs.Reports

/-!
# Lists and scans

Half of the questions to a table are answered from the lists of its stages, and the other half by a
scan of its records in slot order.  Both give the same answers, in whatever order events happen:
the lists share the slots out by stage, pids are distinct, and whoever is noted as a parent has a
record.

## Main definitions

* `View.Names` : a slot is noted as a parent or as the root.
* `Machine.Enclosed` : whoever is noted somewhere has a record.
* `Table.live?` : the process with a pid, by a scan of the records.
* `Table.Scanned` : what the lists answer is what a scan answers.

## Main statements

* `Act.names_apply` : where new parents come from.
* `Machine.scanned_of_history` : lists and scans agree all along.
-/

namespace FeedbackQueue

namespace View

variable {v w : View} {i k : Slot}

/-- A slot is noted as a parent or as the root. -/
def Names (v : View) (k : Slot) : Prop := (∃ i, (v.record i).parent = some k) ∨ v.root = some k

/-- Parents that stay, are given up or become the root name no new slot. -/
theorem names_of_parents (h : w.Names k)
    (hparent : ∀ j, (w.record j).parent = (v.record j).parent ∨ (w.record j).parent = none ∨
      (w.record j).parent = v.root) (hroot : w.root = v.root) : v.Names k := by
  rcases h with ⟨j, hj⟩ | hk
  · rcases hparent j with hsame | hnone | hheir
    · exact .inl ⟨j, hsame.symm.trans hj⟩
    · cases hnone.symm.trans hj
    · exact .inr (hheir.symm.trans hj)
  · exact .inr (hroot.symm.trans hk)

/-- A slot whose process is left without a parent. -/
theorem names_of_update {p : Process} (h : w.Names k)
    (hrecord : w.record = Function.update v.record i p) (hp : p.parent = none)
    (hroot : w.root = v.root) : v.Names k := by
  refine names_of_parents h (fun j => ?_) hroot
  rw [hrecord, Function.update_apply]
  split
  · exact .inr (.inl hp)
  · exact .inl rfl

theorem Steady.names_iff (h : v.Steady w) : w.Names k ↔ v.Names k := by
  simp only [Names, h.root, (h.record _).parent]

end View

/-- **Where new parents come from.**  A slot that an act notes for the first time is the parent of a
child that starts, or becomes the root. -/
theorem Act.names_apply {P : Params} {v : View} {a : Act} {k : Slot} (he : a.Enabled v)
    (h : (a.apply P v).Names k) : v.Names k ∨
      (∃ i plan space files cwd, a = .launch i plan space files cwd ∧ plan.parent = k) ∨
      ∃ name space, a = .crown k name space := by
  rcases a.kinds with hcalm | ⟨i, hi⟩ | ⟨cpu, i, now, rfl⟩
  · obtain ⟨hroot, hcalm⟩ := calm_apply (P := P) he hcalm
    exact .inl (View.names_of_parents h (fun j => .inl (hcalm j).parent) hroot)
  · cases a with
    | conceive i now => exact .inl (View.names_of_update h View.conceive_record rfl rfl)
    | discard i => exact .inl (View.names_of_update h View.discard_record rfl rfl)
    | abandon i => exact .inl (View.names_of_update h View.abandon_record rfl rfl)
    | reap cpu me i => exact .inl (View.names_of_update h View.reap_record rfl rfl)
    | crown i name space =>
      rcases h with ⟨j, hj⟩ | hk
      · rw [apply, View.crown_record, Function.update_apply] at hj
        split at hj
        · refine .inl (.inl ⟨i, ?_⟩)
          simpa only [Process.enter, Process.crown, Process.rename] using hj
        · exact .inl (.inl ⟨j, hj⟩)
      · cases hk
        exact .inr (.inr ⟨name, space, rfl⟩)
    | launch i plan space files cwd =>
      rcases h with ⟨j, hj⟩ | hk
      · rw [apply, View.launch_record, Function.update_apply] at hj
        split at hj
        · exact .inr (.inl ⟨i, plan, space, files, cwd, rfl, Option.some.inj hj⟩)
        · exact .inl (.inl ⟨j, hj⟩)
      · exact .inl (.inr hk)
    | _ => cases hi
  · exact .inl (View.names_of_parents h
      (fun j => (View.retire_parent now).imp_right .inr) View.retire_root)

/-! ### Whoever is noted has a record -/

namespace Machine

variable {P : Params} {m m₁ : Machine P} {e : Event} {p : Progress} {steps : List (Step P)}

/-- Whoever is noted somewhere, in a record or by a request that waits, has a record. -/
structure Enclosed (m : Machine P) : Prop where
  names : ∀ k, m.table.view.Names k → k < P.capacity
  plans : ∀ task ∈ m.tasks, ∀ plan, task.suspension.plan? = some plan → plan.parent < P.capacity

theorem Enclosed.closed (h : m.Enclosed) : m.table.Closed := fun i j hj => h.names j (.inl ⟨i, hj⟩)

/-- The root process that starts has a record. -/
theorem lt_of_crown {i : Slot} (h : m.table.Orderly) (hperform : m.perform e = .ok (p, m₁))
    (hdeed : e.deed? p = some (.crown i)) : i < P.capacity := by
  cases does_of_perform_eq_ok h hperform with
  | steady hnone => cases hnone.symm.trans hdeed
  | @deed d u a hdeed' ha _ _ _ hw =>
    cases hdeed'.symm.trans hdeed
    cases a <;> cases ha
    -- it is runnable afterwards, and beyond the table there are free slots only
    have hphase := (hw.record i).phase
    rw [Act.apply, View.crown_record, Function.update_self] at hphase
    refine Table.lt_of_stage_ne (t := m₁.table) fun hunused => ?_
    rw [Table.view_record, hunused] at hphase
    cases hphase

/-- Events go by the blueprints of requests that wait, or of processes on CPUs. -/
theorem Enclosed.of_perform_eq_ok (h : m.Enclosed) (hm : m.table.Orderly) (hcan : m.CanHappen e)
    (hperform : m.perform e = .ok (p, m₁)) : m₁.Enclosed := by
  obtain ⟨-, hafter, acts, hfollows, hscript⟩ := Machine.of_perform_eq_ok hm hperform
  have hcourse := Event.course_of_script hscript
  have hold : ∀ plan, e.plan? = some plan → plan.parent < P.capacity := by
    intro plan hplan
    cases e with
    | start => cases hplan
    | answer task reply clock => exact h.plans task hcan plan hplan
  constructor
  · have hcrown : ∀ i name space, Act.crown i name space ∈ acts → i < P.capacity := by
      intro i name space hmem
      have hdeeds : Deed.crown i ∈ Event.deeds acts := List.mem_filterMap.2 ⟨_, hmem, rfl⟩
      rw [Event.deeds_of_script hscript] at hdeeds
      exact lt_of_crown hm hperform (Option.mem_toList.1 hdeeds)
    refine hfollows.preserves (I := fun w => ∀ k, w.Names k → k < P.capacity) h.names ?_
    intro v a ha he hv k hk
    rcases Act.names_apply he hk with hk | ⟨i, plan, space, files, cwd, rfl, rfl⟩ |
      ⟨name, space, rfl⟩
    · exact hv k hk
    · exact hold plan (hcourse.plan_of_launch ha)
    · exact hcrown _ _ _ ha
  · rw [hafter]
    intro task htask plan hplan
    rcases mem_tasks_after htask with htask | ⟨s, rfl, rfl⟩
    · exact h.plans task (mem_of_mem_others htask) plan hplan
    · rcases hcourse.plan_or_cpu hplan with hcarried | ⟨cpu, rest, -, rfl⟩
      · exact hold plan hcarried
      · obtain ⟨hmarker, -⟩ := hfollows
        exact hm.sound.valid.marker_lt _ _ hmarker

theorem Enclosed.of_history (h : m.Enclosed) (hm : m.table.Orderly) (hrun : m.History steps m₁) :
    m₁.Enclosed := by
  induction hrun with
  | nil => exact h
  | event hrun hcan hperform ih => exact ih.of_perform_eq_ok (hrun.orderly hm) hcan hperform
  | grant hrun hgrants ih =>
    exact ⟨fun k hk => ih.names k ((hgrants.steady (hrun.orderly hm)).names_iff.1 hk), ih.plans⟩

end Machine

/-! ### Tables -/

namespace Table

variable {P : Params} {t : Table P} {i j : Slot} {pid : Pid} {now : Nat}

/-- The process with a pid, by a scan of the records of slots in use. -/
def live? (t : Table P) (pid : Pid) : Option Process :=
  t.procs.toList.find? fun p => p.stage ≠ .unused ∧ p.pid = pid

/-- What the lists of a table answer is what a scan of its records answers. -/
structure Scanned (t : Table P) : Prop where
  /-- The list of a stage holds the slots in that stage. -/
  mem_members : ∀ s i, i ∈ t.members s ↔ ∃ p, t.procs[i]? = some p ∧ p.stage = s
  /-- It holds no slot twice. -/
  nodup_members : ∀ s, (t.members s).Nodup
  /-- Its recorded length is right. -/
  count_eq : ∀ s, t.count s = (t.members s).length
  /-- The lists hold all slots together. -/
  sum_count : (Stage.all.map t.count).sum = P.capacity
  /-- No two slots share a pid. -/
  pid_inj : ∀ (i j : Slot) (p q : Process), t.procs[i]? = some p → t.procs[j]? = some q →
    p.pid ≠ nobody → p.pid = q.pid → i = j
  /-- A look-up in some stages finds the slot with that pid and one of these stages. -/
  find_eq : ∀ pid stages, t.find pid stages =
    .ok (t.procs.toList.findIdx? fun p => pid ≠ nobody ∧ p.pid = pid ∧ p.stage ∈ stages)
  /-- The priority of a process. -/
  priority_eq : ∀ pid, t.priority? pid = .ok ((t.live? pid).map (·.priority))
  /-- The summary of a process. -/
  lookup_eq : ∀ now pid, t.lookup now pid = .ok ((t.live? pid).map (t.summarize now))
  /-- The first processes that have started, in slot order. -/
  snapshot_eq : ∀ now limit, t.snapshot now limit =
    .ok (((t.procs.toList.filter fun p => p.stage ≠ .unused ∧ p.stage ≠ .embryo).take
      (min limit 64)).map (t.summarize now))
  /-- A snapshot shows what look-ups at the same clock find. -/
  lookup_of_snapshot : ∀ now limit summaries, t.snapshot now limit = .ok summaries →
    ∀ x ∈ summaries, t.lookup now x.pid = .ok (some x)

theorem procs_getElem?_eq_some {p : Process} :
    t.procs[i]? = some p ↔ i < P.capacity ∧ t.record i = p := by
  constructor
  · intro h
    have hi := (Vector.getElem?_eq_some_iff.1 h).1
    exact ⟨hi, Option.some.inj ((procs_getElem?_of_lt hi).symm.trans h)⟩
  · rintro ⟨hi, rfl⟩
    exact procs_getElem?_of_lt hi

/-! ### Lists of stages -/

/-- A slot is at home on one ready level. -/
theorem Sound.nodup_members_runnable (h : t.Sound) : (t.members .runnable).Nodup := by
  rw [members_eq]
  refine List.nodup_flatMap.2 ⟨fun level _ => h.nodup_queue _, ?_⟩
  refine (List.nodup_reverse.2 List.nodup_range).imp fun hne i hi hj => hne ?_
  have hlevel := ((h.valid.mem_iff _ i).1 hi).2.1
  have hlevel' := ((h.valid.mem_iff _ i).1 hj).2.1
  exact Place.ready.inj (hlevel.symm.trans hlevel')

/-- No list holds a slot twice. -/
theorem Sound.nodup_list (h : t.Sound) (s : Stage) : (t.members s).Nodup := by
  by_cases hs : s = .runnable
  · rw [hs]
    exact h.nodup_members_runnable
  · exact h.nodup_members hs

theorem Sound.count_eq (h : t.Sound) (s : Stage) : t.count s = (t.members s).length := by
  by_cases hs : s = .runnable
  · subst hs
    have hlen : ∀ c ∈ t.ready.toList, c.len = (c.walk t.links).length := by
      intro c hc
      obtain ⟨level, hlevel⟩ := List.mem_iff_getElem?.1 hc
      rw [Vector.getElem?_toList] at hlevel
      have hholds := h.threaded (.ready level) c hlevel
      rw [hholds.len_eq, hholds.walk_eq]
    have hsum : ∀ cs : List Chain, (∀ c ∈ cs, c.len = (c.walk t.links).length) →
        cs.foldr (fun c n => c.len + n) 0 = (cs.flatMap (·.walk t.links)).length := by
      intro cs hcs
      induction cs with
      | nil => rfl
      | cons c cs ih =>
        rw [List.foldr_cons, List.flatMap_cons, List.length_append, ih fun d hd => hcs d
          (List.mem_cons_of_mem c hd), hcs c List.mem_cons_self]
    calc t.count .runnable
        = (t.ready.toList.flatMap (·.walk t.links)).length := hsum _ hlen
      _ = (t.members .runnable).length :=
        ((List.reverse_perm _).flatMap_right _).length_eq.symm
  · obtain ⟨c, hc⟩ := Option.isSome_iff_exists.1 (t.chain?_stage_isSome hs)
    have hholds := h.threaded _ c hc
    rw [members_of_ne hs, ← hholds.len_eq]
    cases s <;> cases hc <;> rfl

/-- The lists of the stages together hold every slot once. -/
theorem Sound.perm_members (h : t.Sound) :
    (Stage.all.flatMap t.members).Perm (List.range P.capacity) := by
  refine (List.perm_ext_iff_of_nodup (List.nodup_flatMap.2 ⟨fun s _ => h.nodup_list s, ?_⟩)
    List.nodup_range).2 fun i => ?_
  · refine List.Pairwise.imp ?_ (show Stage.all.Nodup by decide)
    intro s s' hne i hi hi'
    exact hne ((h.mem_members_iff.1 hi).2.symm.trans (h.mem_members_iff.1 hi').2)
  · rw [List.mem_flatMap, List.mem_range]
    constructor
    · rintro ⟨s, -, hi⟩
      exact (h.mem_members_iff.1 hi).1
    · intro hi
      exact ⟨_, by cases (t.record i).stage <;> decide, h.mem_members_iff.2 ⟨hi, rfl⟩⟩

/-! ### Look-ups -/

/-- A look-up that finds nothing has missed nobody. -/
theorem Sound.not_of_find_eq_none (h : t.Sound) {stages : List Stage}
    (e : t.find pid stages = .ok none) (hi : i < P.capacity) (hpid : (t.record i).pid = pid)
    (hne : pid ≠ nobody) : (t.record i).stage ∉ stages := by
  rw [h.find_eq_ok, if_neg hne, Except.ok.injEq, List.findSome?_eq_none_iff] at e
  intro hstage
  have hnone := List.find?_eq_none.1 (e _ hstage) i (h.mem_members_iff.2 ⟨hi, rfl⟩)
  exact hnone (by simpa using hpid)

/-- Slots in use that have the same pid are the same. -/
theorem eq_of_pid (hn : t.view.Numbered) (hpid : (t.record i).pid = (t.record j).pid)
    (hne : (t.record i).pid ≠ nobody) : i = j :=
  hn.pid_inj i j (mt (hn.pid_eq_nobody_iff i).2 hne) hpid

/-- A look-up finds the only slot that there is to be found. -/
theorem Sound.find_eq_findIdx (h : t.Sound) (hn : t.view.Numbered) (pid : Pid)
    (stages : List Stage) : t.find pid stages =
      .ok (t.procs.toList.findIdx? fun p => pid ≠ nobody ∧ p.pid = pid ∧ p.stage ∈ stages) := by
  obtain ⟨found, e⟩ : ∃ found, t.find pid stages = .ok found := ⟨_, h.find_eq_ok pid stages⟩
  rw [e]
  refine congrArg Except.ok (Eq.symm ?_)
  cases found with
  | none =>
    refine List.findIdx?_eq_none_iff.2 fun p hp => ?_
    obtain ⟨i, hi, rfl⟩ := mem_procs_iff.1 hp
    simp only [decide_eq_false_iff_not]
    exact fun hq => h.not_of_find_eq_none e hi hq.2.1 hq.1 hq.2.2
  | some i =>
    obtain ⟨hne, hi, hpid, hstage⟩ := h.of_find_eq_some e
    have hget : ∀ j (hj : j < t.procs.toList.length), t.procs.toList[j] = t.record j := by
      intro j hj
      have hj : j < P.capacity := by simpa using hj
      simp [record, hj]
    refine List.findIdx?_eq_some_iff_getElem.2 ⟨by simpa using hi, ?_, fun j hji => ?_⟩
    · rw [hget]
      exact decide_eq_true ⟨hne, hpid, hstage⟩
    · rw [hget]
      simp only [decide_eq_true_eq]
      rintro ⟨-, hpid', -⟩
      exact Nat.ne_of_lt hji (eq_of_pid hn (hpid'.trans hpid.symm) (hpid' ▸ hne))

theorem live?_eq_some {p : Process} (h : t.live? pid = some p) :
    ∃ i, i < P.capacity ∧ t.record i = p ∧ p.stage ≠ .unused ∧ p.pid = pid := by
  obtain ⟨i, hi, rfl⟩ := mem_procs_iff.1 (List.mem_of_find?_eq_some h)
  exact ⟨i, hi, rfl, by simpa using List.find?_some h⟩

/-- Whoever is in use is found by its pid. -/
theorem live?_pid (hn : t.view.Numbered) (hi : (t.record i).stage ≠ .unused) :
    t.live? (t.record i).pid = some (t.record i) := by
  cases hlive : t.live? (t.record i).pid with
  | none =>
    have hnone := List.find?_eq_none.1 hlive (t.record i)
      (mem_procs_iff.2 ⟨i, lt_of_stage_ne hi, rfl⟩)
    exact absurd hi (by simpa using hnone)
  | some p =>
    obtain ⟨j, -, rfl, -, hpid⟩ := live?_eq_some hlive
    rw [eq_of_pid hn hpid.symm (mt (hn.pid_eq_nobody_iff i).1 hi)]

theorem mem_searched {s : Stage} : s ∈ searched ↔ s ≠ .unused := by
  cases s <;> decide

/-- A look-up in all stages but the first is a scan of the slots in use. -/
theorem Sound.find_searched (h : t.Sound) (hn : t.view.Numbered) (pid : Pid) :
    ∃ found, t.find pid searched = .ok found ∧ (∀ i, found = some i → i < P.capacity) ∧
      t.live? pid = found.map t.record := by
  obtain ⟨found, e⟩ : ∃ found, t.find pid searched = .ok found := ⟨_, h.find_eq_ok pid searched⟩
  refine ⟨found, e, ?_⟩
  cases found with
  | none =>
    refine ⟨nofun, ?_⟩
    cases hlive : t.live? pid with
    | none => rfl
    | some p =>
      obtain ⟨i, hi, rfl, hstage, hpid⟩ := live?_eq_some hlive
      have hne : pid ≠ nobody := hpid ▸ mt (hn.pid_eq_nobody_iff i).1 hstage
      exact absurd (mem_searched.2 hstage) (h.not_of_find_eq_none e hi hpid hne)
  | some i =>
    obtain ⟨-, hi, rfl, hstage⟩ := h.of_find_eq_some e
    refine ⟨?_, live?_pid hn (mem_searched.1 hstage)⟩
    rintro _ ⟨⟩
    exact hi

theorem Sound.priority_eq_ok (h : t.Sound) (hn : t.view.Numbered) (pid : Pid) :
    t.priority? pid = .ok ((t.live? pid).map (·.priority)) := by
  obtain ⟨found, e, hlt, hlive⟩ := h.find_searched hn pid
  unfold priority?
  rw [e, hlive]
  cases found with
  | none => rfl
  | some i =>
    change (t.process i >>= _) = _
    rw [process_of_lt (hlt i rfl)]
    rfl

theorem Closed.lookup_eq_live (hc : t.Closed) (h : t.Sound) (hn : t.view.Numbered) (now : Nat)
    (pid : Pid) : t.lookup now pid = .ok ((t.live? pid).map (t.summarize now)) := by
  obtain ⟨found, e, hlt, hlive⟩ := h.find_searched hn pid
  unfold lookup
  rw [e, hlive]
  cases found with
  | none => rfl
  | some i =>
    change (t.process i >>= _) = _
    rw [process_of_lt (hlt i rfl)]
    change (t.summary now (t.record i) >>= _) = _
    rw [summary_eq_ok (hc i)]
    rfl

/-- A sound table with distinct pids and parents in it answers like a scan. -/
theorem scanned_of_closed (h : t.Sound) (hn : t.view.Numbered) (hc : t.Closed) : t.Scanned where
  mem_members s i := by
    simp only [h.mem_members_iff, procs_getElem?_eq_some]
    constructor
    · rintro ⟨hi, hs⟩
      exact ⟨_, ⟨hi, rfl⟩, hs⟩
    · rintro ⟨_, ⟨hi, rfl⟩, hs⟩
      exact ⟨hi, hs⟩
  nodup_members := h.nodup_list
  count_eq := h.count_eq
  sum_count := by
    have hlength := h.perm_members.length_eq
    rwa [List.length_flatMap, List.length_range, ← funext h.count_eq] at hlength
  pid_inj i j p q hp hq hne hpid := by
    obtain ⟨-, rfl⟩ := procs_getElem?_eq_some.1 hp
    obtain ⟨-, rfl⟩ := procs_getElem?_eq_some.1 hq
    exact eq_of_pid hn hpid hne
  find_eq := h.find_eq_findIdx hn
  priority_eq := h.priority_eq_ok hn
  lookup_eq := hc.lookup_eq_live h hn
  snapshot_eq _ := hc.snapshot_eq_ok
  lookup_of_snapshot now limit summaries e x hx := by
    rw [hc.snapshot_eq_ok] at e
    cases e
    obtain ⟨p, hp, rfl⟩ := List.mem_map.1 hx
    obtain ⟨hp, hshown⟩ := List.mem_filter.1 (List.mem_of_mem_take hp)
    obtain ⟨i, -, rfl⟩ := mem_procs_iff.1 hp
    have hused : (t.record i).stage ≠ .unused := (of_decide_eq_true hshown).1
    refine (hc.lookup_eq_live h hn now _).trans ?_
    rw [show (t.summarize now (t.record i)).pid = (t.record i).pid from rfl, live?_pid hn hused]
    rfl

end Table

namespace Machine

variable {P : Params} {m : Machine P} {steps : List (Step P)}

/-- In a new table nobody is noted. -/
theorem enclosed_of_fresh {t : Table P} {now : Nat} (hview : t.view = .fresh P now) :
    Enclosed { table := t } := by
  refine ⟨fun k hk => ?_, nofun⟩
  rw [show ({ table := t } : Machine P).table.view = .fresh P now from hview] at hk
  rcases hk with ⟨i, hi⟩ | hroot
  · cases hi
  · cases hroot

/-- **Lists and scans agree.**  In every run, whatever is asked of the table between two events, the
lists of the stages answer as a scan of all records would. -/
theorem scanned_of_history {t : Table P} {now : Nat} (hcreate : Table.create P now = .ok (.ok t))
    (hrun : History { table := t } steps m) : m.table.Scanned := by
  obtain ⟨ht, hview⟩ := Table.orderly_of_create hcreate
  have hnumbered := hrun.numbered ht (hview ▸ numbered_fresh)
  exact Table.scanned_of_closed (hrun.orderly ht).sound hnumbered
    ((enclosed_of_fresh hview).of_history ht hrun).closed

/-- A snapshot leaves out an embryo, which a look-up of its pid finds. -/
theorem scanned_of_embryo : ∃ (t : Table ⟨3, 0, 1, 1, 1, true⟩) (steps : List (Step _))
    (m : Machine _), Table.create _ 0 = .ok (.ok t) ∧ History { table := t } steps m ∧
      m.table.members .embryo = [1] ∧ m.table.find 2 [.embryo] = .ok (some 1) ∧
      (m.table.snapshot 0 5).map (·.map Summary.pid) = .ok [1] ∧ m.table.Scanned := by
  obtain ⟨t, steps, m, hcreate, hrun, hmembers, hfind, hsnapshot⟩ :
      ∃ (t : Table ⟨3, 0, 1, 1, 1, true⟩) (steps : List (Step _)) (m : Machine _),
        Table.create _ 0 = .ok (.ok t) ∧ History { table := t } steps m ∧
        m.table.members .embryo = [1] ∧ m.table.find 2 [.embryo] = .ok (some 1) ∧
        (m.table.snapshot 0 5).map (·.map Summary.pid) = .ok [1] :=
    ⟨_, _, _, rfl,
      History.nil.event (e := .start (.boot "" []) 0) trivial rfl
        |>.event (e := .answer ⟨none, .allocating 0 (.root "" [])⟩ (some ⟨0⟩) 0)
          List.mem_cons_self rfl
        |>.event (e := .answer ⟨none, .mapping 0 "" []⟩ (some ⟨0⟩) 0) List.mem_cons_self rfl
        |>.event (e := .start .allocate 0) trivial rfl, rfl, rfl, rfl⟩
  exact ⟨t, steps, m, hcreate, hrun, hmembers, hfind, hsnapshot, scanned_of_history hcreate hrun⟩

end Machine

end FeedbackQueue
