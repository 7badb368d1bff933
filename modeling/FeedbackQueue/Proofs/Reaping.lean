import FeedbackQueue.Proofs.Errands
import FeedbackQueue.Proofs.Evidence

/-!
# Reaping

Whoever exits is reaped once at most, and by its parent.  The slot of a child is freed in one act of
its parent, and the pid goes from there through the calls that free its remains to the end of the
request; from that act on nobody has the pid.

## Main definitions

* `Machine.Buries` : what an event does to the pids of reaped children.
* `Machine.Step.Reaps` : a step in which a child is reaped, and what has come before it.

## Main statements

* `Machine.buries_of_perform_eq_ok` : pids are carried along, but for those of new reapings.
* `Machine.reaped_of_history` : every process is reaped once at most, by its parent.
-/

namespace FeedbackQueue

/-! ### Stretches that reap -/

namespace Table

variable {P : Params} {t t' : Table P} {cpu : Cpu} {now : Nat} {p : Progress} {pid : Pid}

/-- The process on a CPU reaps a child, and the request goes on with its pid. -/
def Reaps (t : Table P) (cpu : Cpu) (p : Progress) (t' : Table P) : Prop :=
  ∃ me i, t.occupant? cpu = some me ∧ t.view.Reapable me i ∧ t'.view = t.view.reap i ∧
    p.corpse? = some (t.record i).pid

/-- The remains of a child are freed one after the other, and its pid is carried along. -/
theorem of_release {reaper : Reaper} {remains : Remains}
    (h : t.release reaper remains = .ok (p, t')) : t' = t ∧ p.corpse? = some remains.pid := by
  unfold release releaseSpace at h
  cases hstack : remains.stack with
  | some stack =>
    rw [hstack] at h
    cases h
    exact ⟨rfl, rfl⟩
  | none =>
    rw [hstack] at h
    cases hspace : remains.space with
    | some space =>
      rw [hspace] at h
      cases h
      exact ⟨rfl, rfl⟩
    | none =>
      rw [hspace] at h
      cases h
      exact ⟨rfl, Reaper.reaped_outcome⟩

/-- What follows when a child has been found. -/
theorem reaps_of_release {reaper : Reaper} {remains : Remains} {me : Slot} {t₁ : Table P}
    (hme : t.occupant? cpu = some me) (hfinds : t.Finds me (.reaped remains t₁))
    (hrest : (do let t ← t₁.settle; t.release reaper remains) = .ok (p, t')) :
    t.Reaps cpu p t' := by
  obtain ⟨h₁, i, hreapable, -, hview, hremains⟩ := hfinds
  rw [h₁.settle_eq] at hrest
  obtain ⟨rfl, hpid⟩ := of_release hrest
  rw [hremains] at hpid
  exact ⟨me, i, hme, hreapable, hview, hpid⟩

theorem Orderly.of_waitRound (h : t.Orderly) (hwait : t.waitRound cpu now = .ok (p, t')) :
    p.corpse? = none ∨ t.Reaps cpu p t' := by
  obtain ⟨result, hscan, hrest⟩ := bind_eq_ok.1 hwait
  obtain ⟨me, hme, hfinds⟩ := h.yields_scan.of_ok hscan
  cases result with
  | noChildren =>
    cases hrest
    exact .inl rfl
  | reaped remains t₁ => exact .inr (reaps_of_release hme hfinds hrest)
  | pending =>
    obtain ⟨_, -, hrest⟩ := bind_eq_ok.1 hrest
    obtain ⟨_, -, hrest⟩ := bind_eq_ok.1 hrest
    cases hrest
    exact .inl rfl

theorem Orderly.of_poll (h : t.Orderly) (hpoll : t.poll cpu = .ok (p, t')) :
    p.corpse? = none ∨ t.Reaps cpu p t' := by
  obtain ⟨result, hscan, hrest⟩ := bind_eq_ok.1 hpoll
  obtain ⟨me, hme, hfinds⟩ := h.yields_scan.of_ok hscan
  cases result with
  | noChildren | pending =>
    cases hrest
    exact .inl rfl
  | reaped remains t₁ => exact .inr (reaps_of_release hme hfinds hrest)

end Table

/-! ### Pids of reaped processes -/

/-- The pid of a reaped child is spent. -/
theorem View.Numbered.spent_reap {v : View} {i : Slot} (h : v.Numbered)
    (hi : (v.record i).stage = .zombie) : (v.reap i).Spent (v.record i).pid := by
  have hused : (v.record i).stage ≠ .unused := hi ▸ nofun
  have hpid : (v.record i).pid ≠ nobody := mt (h.pid_eq_nobody_iff i).1 hused
  refine ⟨hpid, h.pid_lt i, fun j hj => ?_⟩
  rw [View.reap_record, Function.update_apply] at hj
  split at hj
  · exact hpid hj.symm
  · exact ‹¬ j = i› (h.pid_inj i j hused hj.symm).symm

namespace Table

variable {P : Params} {t : Table P} {pid : Pid}

/-- A pid is not found any more. -/
structure Forgets (t : Table P) (pid : Pid) : Prop where
  lookup : ∀ now, t.lookup now pid = .ok none
  priority : t.priority? pid = .ok none
  kill : t.kill pid = .ok (.error .notFound)
  setPriority : ∀ priority ≤ P.maxPriority, t.setPriority pid priority = .ok (.error .notFound)

/-- A pid that nobody has is not found. -/
theorem Sound.forgets (h : t.Sound) (hpid : ∀ i, (t.record i).pid ≠ pid) : t.Forgets pid := by
  have hfind : ∀ stages, t.find pid stages = .ok none := by
    intro stages
    cases e : t.find pid stages with
    | error f => cases (h.find_eq_ok pid stages).symm.trans e
    | ok found =>
      cases found with
      | none => rfl
      | some i => exact absurd (h.of_find_eq_some e).2.2.1 (hpid i)
  refine ⟨fun now => ?_, ?_, ?_, fun priority hle => ?_⟩
  · rw [lookup, hfind]
    rfl
  · rw [priority?, hfind]
    rfl
  · rw [kill, hfind]
    rfl
  · rw [Table.setPriority, if_neg (Nat.not_lt.2 hle), hfind]
    rfl

end Table

namespace Machine

variable {P : Params} {m m₁ : Machine P} {e : Event} {p : Progress}
  {past later steps : List (Step P)} {s : Step P} {parent pid : Pid}

/-- What an event does to the pids of reaped children. -/
inductive Buries (m : Machine P) (e : Event) (p : Progress) (m₁ : Machine P) : Prop
  /-- It carries one along, if any. -/
  | carries (hcorpse : p.corpse? = e.corpse?)
  /-- A process reaps a child. -/
  | reaps {cpu : Cpu} (hcpu : e.cpu? = some cpu) (hnone : e.corpse? = none)
      (hreaps : m.table.Reaps cpu p m₁.table)

/-- **Pids of reaped children are carried along, but for those of new reapings.** -/
theorem buries_of_perform_eq_ok (h : m.table.Orderly) (hperform : m.perform e = .ok (p, m₁)) :
    m.Buries e p m₁ := by
  obtain ⟨-, -, acts, -, hscript⟩ := of_perform_eq_ok h hperform
  obtain ⟨⟨p', t⟩, hstretch, hafter⟩ := bind_eq_ok.1 hperform
  cases hafter
  cases e with
  | start request clock =>
    rcases Event.errands_of_start hscript with ⟨⟨cpu, rfl | rfl⟩, -⟩ | ⟨hnone, -⟩
    · rcases h.of_waitRound hstretch with hnone | hreaps
      · exact .carries hnone
      · exact .reaps rfl rfl hreaps
    · rcases h.of_poll hstretch with hnone | hreaps
      · exact .carries hnone
      · exact .reaps rfl rfl hreaps
    · exact .carries hnone
  | answer task reply clock =>
    obtain ⟨caller, s⟩ := task
    rcases Event.errands_of_resume hscript with ⟨⟨cpu, rfl⟩, -⟩ | ⟨hcorpse, -⟩
    · rcases h.of_waitRound hstretch with hnone | hreaps
      · exact .carries hnone
      · exact .reaps rfl rfl hreaps
    · exact .carries hcorpse

/-- The pid that a step ends with if it ends a request that has reaped a child. -/
def Step.reaped? (s : Step P) : Option Pid :=
  match s.result with
  | .returned outcome => outcome.reaped?
  | .waiting _ => none

/-- A step in which a child is reaped: one that has exited and is on no CPU, by its parent.  Before
the step the child has been asked to exit and its CPU has been taken back from it, and the parent
has forked it or is the root process; after the step its pid is not found any more. -/
structure Step.Reaps (past : List (Step P)) (s : Step P) (parent pid : Pid) : Prop where
  caller : s.before.caller s.event = some parent
  child : ∃ me i, (s.before.table.record me).pid = parent ∧
    (s.before.table.record i).pid = pid ∧ (s.before.table.record i).stage = .zombie ∧
    (s.before.table.record i).parent = some me ∧ (∀ cpu, s.before.table.occupant? cpu ≠ some i) ∧
    (s.before.table.root = some me ∨ Forked past parent pid)
  released : Released past pid
  forgotten : ∀ p m, s.before.perform s.event = .ok (p, m) →
    ∀ later m', m.History later m' → m'.table.Forgets pid

/-- A process has reaped another one. -/
def Reaped (past : List (Step P)) (parent pid : Pid) : Prop :=
  ∃ earlier s since, past = earlier ++ s :: since ∧ s.Reaps earlier parent pid

theorem Reaped.append (h : Reaped past parent pid) : Reaped (past ++ later) parent pid := by
  obtain ⟨earlier, s, since, rfl, hreaps⟩ := h
  exact ⟨earlier, s, since ++ later, by rw [List.append_assoc, List.cons_append], hreaps⟩

/-- The pids of reaped children that have been answered, or are still carried. -/
def buried (past : List (Step P)) (tasks : List Task) : List Pid :=
  past.filterMap Step.reaped? ++ tasks.filterMap Task.corpse?

/-- Pids of reaped children are answered once at most. -/
structure Settles (past : List (Step P)) (m : Machine P) : Prop where
  nodup : (buried past m.tasks).Nodup
  spent : ∀ pid ∈ buried past m.tasks, m.table.view.Spent pid
  reaped : ∀ task ∈ m.tasks, ∀ pid, task.corpse? = some pid →
    ∃ parent, task.caller = some parent ∧ Reaped past parent pid

/-- The pids before an event. -/
theorem buried_perm_before (past : List (Step P)) (hcan : m.CanHappen e) :
    (buried past m.tasks).Perm (e.corpse?.toList ++ buried past (m.others e)) := by
  cases e with
  | start => exact .refl _
  | answer task reply clock =>
    have htasks := (List.perm_cons_erase hcan).filterMap Task.corpse?
    have hcons : (task :: m.tasks.erase task).filterMap Task.corpse? =
        task.corpse?.toList ++ (m.tasks.erase task).filterMap Task.corpse? := by
      rw [List.filterMap_cons]
      cases task.corpse? <;> rfl
    rw [hcons] at htasks
    exact (htasks.append_left _).trans (List.perm_append_comm_assoc ..)

/-- The pids after an event. -/
theorem buried_perm_after (past : List (Step P)) {t : Table P} :
    (buried (past ++ [⟨m, e, p⟩]) (m.after e p t).tasks).Perm
      (p.corpse?.toList ++ buried past (m.others e)) := by
  unfold buried
  rw [List.filterMap_append, filterMap_singleton, tasks_after, List.filterMap_append,
    List.append_assoc]
  cases p with
  | returned outcome => exact List.perm_append_comm_assoc ..
  | waiting s =>
    have hnone : Step.reaped? (P := P) ⟨m, e, .waiting s⟩ = none := rfl
    rw [hnone, filterMap_singleton, Option.toList_none, List.nil_append]
    exact List.perm_append_comm_assoc ..

/-- What the table tells of a child that is reaped. -/
theorem Step.reaps_of_evident {cpu : Cpu} (h : Evident past m) (hk : m.Kept)
    (hn : m.table.view.Numbered) (hd : m.Disciplined e) (hcan : m.CanHappen e)
    (hperform : m.perform e = .ok (p, m₁)) (hcpu : e.cpu? = some cpu)
    (hreaps : m.table.Reaps cpu p m₁.table) (hpid : p.corpse? = some pid) :
    ∃ parent, m.caller e = some parent ∧ Step.Reaps past ⟨m, e, p⟩ parent pid := by
  obtain ⟨me, i, hme, ⟨hzombie, hparent, hfree⟩, hview, hcorpse⟩ := hreaps
  obtain rfl := Option.some.inj (hcorpse.symm.trans hpid)
  -- the caller is the process on the CPU
  obtain ⟨j, hw⟩ := hd.works cpu hcpu
  obtain rfl : j = me := Option.some.inj (hw.marker.symm.trans hme)
  refine ⟨_, hw.pid_eq, hw.pid_eq, ?_, h.released i hzombie hfree, ?_⟩
  · exact ⟨j, i, rfl, rfl, hzombie, hparent, fun cpu hi => hfree ⟨cpu, hi⟩, h.forked i j hparent⟩
  · intro p' m' hperform' later m'' hlater
    cases hperform.symm.trans hperform'
    have hm := hk.regular.orderly
    have hm₁ := (of_perform_eq_ok hm hperform).1
    have hn₁ : m₁.table.view.Numbered := (History.nil.event hcan hperform).numbered hm hn
    have hspent := hlater.spent hm₁ hn₁ (hview ▸ hn.spent_reap hzombie)
    exact (hlater.orderly hm₁).sound.forgets hspent.unnamed

/-- The reaping of a child whose pid a request has come to. -/
theorem Settles.reaped_of_corpse (h : Settles past m) (he : Evident past m) (hk : m.Kept)
    (hn : m.table.view.Numbered) (hd : m.Disciplined e) (hcan : m.CanHappen e)
    (hperform : m.perform e = .ok (p, m₁)) (hpid : p.corpse? = some pid) :
    ∃ parent, m.caller e = some parent ∧ Reaped (past ++ [⟨m, e, p⟩]) parent pid := by
  cases buries_of_perform_eq_ok hk.regular.orderly hperform with
  | carries hcorpse =>
    cases e with
    | start => cases hpid.symm.trans hcorpse
    | answer task reply clock =>
      obtain ⟨parent, hcaller, hreaped⟩ := h.reaped task hcan pid (hcorpse.symm.trans hpid)
      exact ⟨parent, hcaller, hreaped.append⟩
  | reaps hcpu _ hreaps =>
    obtain ⟨parent, hcaller, hstep⟩ :=
      Step.reaps_of_evident he hk hn hd hcan hperform hcpu hreaps hpid
    exact ⟨parent, hcaller, past, _, [], rfl, hstep⟩

/-- Pids are answered once at most, after a disciplined event. -/
theorem Settles.of_perform_eq_ok (h : Settles past m) (he : Evident past m) (hk : m.Kept)
    (hn : m.table.view.Numbered) (hd : m.Disciplined e) (hcan : m.CanHappen e)
    (hperform : m.perform e = .ok (p, m₁)) : Settles (past ++ [⟨m, e, p⟩]) m₁ := by
  have hm := hk.regular.orderly
  have hn₁ : m₁.table.view.Numbered := (History.nil.event hcan hperform).numbered hm hn
  have hspent : ∀ pid, m.table.view.Spent pid → m₁.table.view.Spent pid := fun pid =>
    (History.nil.event hcan hperform).spent hm hn
  obtain ⟨-, hafter, -⟩ := Machine.of_perform_eq_ok hm hperform
  have htasks : m₁.tasks = (m.after e p m₁.table).tasks := congrArg Machine.tasks hafter
  have hbefore := buried_perm_before past hcan
  have hlater := buried_perm_after past (m := m) (e := e) (p := p) (t := m₁.table)
  rw [← htasks] at hlater
  -- the pids afterwards are those before, with that of a child which has just been reaped
  have hpids : (p.corpse?.toList ++ buried past (m.others e)).Nodup ∧
      ∀ pid ∈ p.corpse?.toList ++ buried past (m.others e), m₁.table.view.Spent pid := by
    have hnodup := hbefore.nodup_iff.1 h.nodup
    have hold : ∀ pid ∈ e.corpse?.toList ++ buried past (m.others e), m.table.view.Spent pid :=
      fun pid hpid => h.spent pid (hbefore.mem_iff.2 hpid)
    cases buries_of_perform_eq_ok hm hperform with
    | carries hcorpse =>
      rw [hcorpse]
      exact ⟨hnodup, fun pid hpid => hspent pid (hold pid hpid)⟩
    | reaps _ hnone hreaps =>
      obtain ⟨me, i, -, hreapable, hview, hcorpse⟩ := hreaps
      rw [hnone, Option.toList_none, List.nil_append] at hnodup hold
      rw [hcorpse, Option.toList_some, List.singleton_append]
      refine ⟨List.nodup_cons.2 ⟨fun hmem => (hold _ hmem).unnamed i rfl, hnodup⟩, ?_⟩
      refine List.forall_mem_cons.2 ⟨?_, fun pid hpid => hspent pid (hold pid hpid)⟩
      rw [hview]
      exact hn.spent_reap hreapable.1
  refine ⟨hlater.nodup_iff.2 hpids.1, fun pid hpid => hpids.2 pid (hlater.mem_iff.1 hpid),
    fun task htask pid hpid => ?_⟩
  rw [htasks] at htask
  rcases mem_tasks_after htask with htask | ⟨s, rfl, rfl⟩
  · obtain ⟨parent, hcaller, hreaped⟩ := h.reaped task (mem_of_mem_others htask) pid hpid
    exact ⟨parent, hcaller, hreaped.append⟩
  · exact h.reaped_of_corpse he hk hn hd hcan hperform hpid

theorem Settles.of_grants {i : Slot} {files : Multiset FileHandle} {t : Table P}
    (h : Settles past m) (hm : m.table.Orderly) (hn : m.table.view.Numbered)
    (hgrants : m.Grants i files t) : Settles past { m with table := t } where
  nodup := h.nodup
  spent pid hpid := (History.nil.grant hgrants).spent hm hn (h.spent pid hpid)
  reaped := h.reaped

/-- In disciplined histories pids of reaped children are answered once at most. -/
theorem History.settles (h : m.History steps m₁) (hk : m.Kept) (hb : m.Balanced)
    (hn : m.table.view.Numbered) (he : Evident [] m) (hm : Settles [] m)
    (hdisciplined : ∀ s ∈ steps, s.before.Disciplined s.event) : Settles steps m₁ := by
  induction h with
  | nil => exact hm
  | event hrun hcan hperform ih =>
    obtain ⟨hpast, hlast⟩ := List.forall_mem_append.1 hdisciplined
    exact (ih hpast).of_perform_eq_ok (hrun.evident hk hb he hpast) (hrun.kept hk hpast)
      (hrun.numbered hk.regular.orderly hn) (hlast _ List.mem_cons_self) hcan hperform
  | grant hrun hgrants ih =>
    exact (ih hdisciplined).of_grants (hrun.orderly hk.regular.orderly)
      (hrun.numbered hk.regular.orderly hn) hgrants

/-- **Every process is reaped once at most, by its parent.**  In a disciplined run no pid is
answered twice to those who look for an exited child.  A pid that is answered is that of a process
that the caller has reaped in this step or an earlier one: a child of the caller which had exited
and left its CPU; and nobody finds it any more. -/
theorem reaped_of_history {t : Table P} {now : Nat} (hcreate : Table.create P now = .ok (.ok t))
    (hrun : History { table := t } steps m)
    (hdisciplined : ∀ s ∈ steps, s.before.Disciplined s.event) :
    (steps.filterMap Step.reaped?).Nodup ∧
    ∀ earlier s later pid, steps = earlier ++ s :: later → s.reaped? = some pid →
      ∃ parent, s.before.caller s.event = some parent ∧ Reaped (earlier ++ [s]) parent pid := by
  have hk := kept_of_create hcreate
  have hb := balanced_of_create hcreate
  obtain ⟨ht, hview⟩ := Table.orderly_of_create hcreate
  have hn : t.view.Numbered := hview ▸ numbered_fresh
  have he : Evident (P := P) [] { table := t } := evident_of_create hcreate
  have hm : Settles (P := P) [] { table := t } := ⟨List.nodup_nil, nofun, nofun⟩
  refine ⟨(hrun.settles hk hb hn he hm hdisciplined).nodup.of_append_left, ?_⟩
  rintro earlier s later pid rfl hpid
  obtain ⟨hpast, hcan, m₂, hperform, -⟩ := hrun.split
  obtain ⟨hbefore, hrest⟩ := List.forall_mem_append.1 hdisciplined
  refine (hpast.settles hk hb hn he hm hbefore).reaped_of_corpse
    (hpast.evident hk hb he hbefore) (hpast.kept hk hbefore) (hpast.numbered ht hn)
    (hrest s List.mem_cons_self) hcan hperform ?_
  unfold Step.reaped? at hpid
  split at hpid
  · exact ‹s.result = _› ▸ hpid
  · cases hpid

/-- The root process forks a child, waits for it and reaps it. -/
theorem reaped_of_waiting : ∃ (t : Table ⟨2, 0, 1, 1, 1, true⟩) (earlier : List (Step _))
    (s : Step _) (m : Machine _), Table.create _ 0 = .ok (.ok t) ∧
      History { table := t } (earlier ++ [s]) m ∧ s.reaped? = some 2 ∧
      (s.before.caller s.event) = some 1 ∧ Reaped (earlier ++ [s]) 1 2 := by
  obtain ⟨t, hcreate, hleads⟩ : ∃ t : Table ⟨2, 0, 1, 1, 1, true⟩,
      Table.create _ 0 = .ok (.ok t) ∧ Leads Disciplined (fun m =>
        (⟨some 1, .freeingSpace (.wait 0) 2 ⟨1⟩⟩ : Task) ∈ m.tasks ∧
          ∃ m', m.perform (.answer ⟨some 1, .freeingSpace (.wait 0) 2 ⟨1⟩⟩ () 0) =
            .ok (.returned (.waited (.ok 2) 0), m'))
      [.start (.boot "" []) 0, .answer ⟨none, .allocating 0 (.root "" [])⟩ (some ⟨0⟩) 0,
        .answer ⟨none, .mapping 0 "" []⟩ (some ⟨0⟩) 0, .start (.dispatch 0) 0, .start (.fork 0) 0,
        .answer ⟨some 1, .allocating 1 (.child rootPlan)⟩ (some ⟨1⟩) 0,
        .answer ⟨some 1, .copying 1 rootPlan ⟨0⟩⟩ (some ⟨1⟩) 0, .start (.wait 0) 0,
        .start (.reclaim 0 ⟨0, 1⟩) 0, .start (.dispatch 0) 0, .start (.exit 0) 0,
        .start (.reclaim 0 ⟨1, 2⟩) 0, .start (.dispatch 0) 0,
        .answer ⟨some 1, .switching 0 .wait⟩ 0 0,
        .answer ⟨some 1, .freeingStack (.wait 0) 2 ⟨1⟩ (some ⟨1⟩)⟩ () 0] { table := t } := by
    have hnone {m : Machine ⟨2, 0, 1, 1, 1, true⟩} {e : Event} (hcpu : e.cpu? = none)
        (hback : e.givesBack = none) : m.Disciplined e :=
      (considerate_of_none hcpu hback).disciplined
    refine ⟨_, rfl, trivial, hnone rfl rfl, _, _, rfl, ?_⟩
    refine ⟨List.mem_cons_self, hnone rfl rfl, _, _, rfl, ?_⟩
    refine ⟨List.mem_cons_self, hnone rfl rfl, _, _, rfl, ?_⟩
    refine ⟨trivial, hnone rfl rfl, _, _, rfl, ?_⟩
    refine ⟨trivial, disciplined_of_works (i := 0) rfl rfl ⟨rfl, rfl, rfl⟩ nofun, _, _, rfl, ?_⟩
    refine ⟨List.mem_cons_self, hnone rfl rfl, _, _, rfl, ?_⟩
    refine ⟨List.mem_cons_self, hnone rfl rfl, _, _, rfl, ?_⟩
    refine ⟨trivial, disciplined_of_works (i := 0) rfl rfl ⟨rfl, rfl, rfl⟩ nofun, _, _, rfl, ?_⟩
    refine ⟨trivial, disciplined_of_reclaim rfl rfl List.mem_cons_self (by decide), _, _, rfl, ?_⟩
    refine ⟨trivial, hnone rfl rfl, _, _, rfl, ?_⟩
    refine ⟨trivial, disciplined_of_works (i := 1) rfl rfl ⟨rfl, rfl, rfl⟩ (by decide),
      _, _, rfl, ?_⟩
    refine ⟨trivial, disciplined_of_reclaim rfl rfl List.mem_cons_self (by decide), _, _, rfl, ?_⟩
    refine ⟨trivial, hnone rfl rfl, _, _, rfl, ?_⟩
    refine ⟨List.mem_cons_of_mem _ List.mem_cons_self,
      disciplined_of_works (i := 0) rfl rfl ⟨rfl, rfl, rfl⟩ (by decide), _, _, rfl, ?_⟩
    refine ⟨List.mem_cons_self, hnone rfl rfl, _, _, rfl, ?_⟩
    exact ⟨List.mem_cons_self, _, rfl⟩
  obtain ⟨earlier, m, hrun, -, hdisciplined, hcan, m', hperform⟩ := hleads.exists_history
  have hlast : m.Disciplined (.answer ⟨some 1, .freeingSpace (.wait 0) 2 ⟨1⟩⟩ () 0) :=
    (considerate_of_none rfl rfl).disciplined
  have hrun' := hrun.event (e := .answer ⟨some 1, .freeingSpace (.wait 0) 2 ⟨1⟩⟩ () 0) hcan hperform
  obtain ⟨-, hreaped⟩ := reaped_of_history hcreate hrun' (List.forall_mem_append.2
    ⟨hdisciplined, List.forall_mem_singleton.2 hlast⟩)
  obtain ⟨parent, hcaller, hparent⟩ := hreaped earlier _ [] 2 rfl rfl
  obtain rfl : 1 = parent := Option.some.inj hcaller
  exact ⟨t, earlier, _, m', hcreate, hrun', rfl, rfl, hparent⟩

end Machine

end FeedbackQueue
