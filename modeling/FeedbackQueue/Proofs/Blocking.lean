import FeedbackQueue.Proofs.Levels
import FeedbackQueue.Table.Blocking

/-!
# Leaving, sleeping and waking on the view

A wake-up takes every sleeper of a channel to the end of its ready level, in the order in which they
went to sleep, and touches nobody else: `View.wake` says so in one formula.  A process that leaves
its CPU is charged, changed and queued again in its new stage; its marker stays.

## Main definitions

* `View.wake`, `View.wakeParent`, `View.kill` : the view after waking.
* `View.leave`, `View.depart` : the view after leaving a CPU.

## Main statements

* `Sound.wake_eq_ok` : the loop of `Table.wake` comes to `View.wake`.
* `Orderly.yields_leave`, `Orderly.yields_depart`, `Orderly.yields_kill` : the operations.
-/

namespace FeedbackQueue

namespace Process

/-- The record of a process that has been woken. -/
def awaken (p : Process) : Process := { p with channel := none, stage := .runnable }

/-- The record of a process whose stint that ends at `now` has been added to its ticks. -/
def bill (now : Nat) (p : Process) : Process :=
  { p with cpuTicks := p.cpuTicks + (now - p.dispatchedAt) }

/-- Whether a process sleeps on a channel. -/
def sleepsOn (c : Channel) (p : Process) : Bool := p.stage = .sleeping ∧ p.channel = some c

theorem sleepsOn_iff {c : Channel} {p : Process} :
    p.sleepsOn c = true ↔ p.stage = .sleeping ∧ p.channel = some c := by
  simp [sleepsOn]

theorem sleepsOn_awaken {c : Channel} {p : Process} : p.awaken.sleepsOn c = false := by
  simp [sleepsOn, awaken]

end Process

namespace View

variable {P : Params} {v : View} {i : Slot} {c : Channel}

/-- The view after every process that sleeps on a channel has been woken. -/
def wake (c : Channel) (v : View) : View :=
  { v with
    record := fun i => if (v.record i).sleepsOn c then (v.record i).awaken else v.record i
    queue := fun
      | .ready level => v.queue (.ready level) ++ (v.queue (.stage .sleeping)).filter fun i =>
          (v.record i).sleepsOn c && (v.record i).priority == level
      | .stage .sleeping => (v.queue (.stage .sleeping)).filter fun i => !(v.record i).sleepsOn c
      | place => v.queue place }

/-- The view after the sleepers on the parent of a process have been woken. -/
def wakeParent (p : Process) (v : View) : View :=
  match p.parent with
  | some i => v.wake (.process (v.record i).pid)
  | none => v

/-- The view after a process has been asked to end. -/
def kill (i : Slot) (v : View) : View :=
  let v := v.revise i fun p => { p with killed := true }
  if (v.record i).stage = .sleeping then v.shift i Process.awaken else v

/-- The view after a slot has switched away at `now`. -/
def depart (i : Slot) (now : Nat) (v : View) : View := v.revise i (Process.bill now)

/-- The view after a running slot has been charged and changed, and has switched away at `now`. -/
def leave (P : Params) (i : Slot) (now : Nat) (change : Process → Process) (v : View) : View :=
  (v.shift i fun p => change (p.charge P.budget now)).depart i now

@[simp] theorem wake_marker : (v.wake c).marker = v.marker := rfl
@[simp] theorem wake_root : (v.wake c).root = v.root := rfl
@[simp] theorem wake_nextPid : (v.wake c).nextPid = v.nextPid := rfl

/-- Waking changes the channel and the stage of a record, and nothing else. -/
theorem wake_record_eq :
    ∃ channel stage, (v.wake c).record i = { v.record i with channel, stage } := by
  unfold wake
  dsimp only
  split
  · exact ⟨_, _, rfl⟩
  · exact ⟨_, _, rfl⟩

theorem wakeParent_record_eq {p : Process} :
    ∃ channel stage, (v.wakeParent p).record i = { v.record i with channel, stage } := by
  unfold wakeParent
  split
  · exact wake_record_eq
  · exact ⟨_, _, rfl⟩

theorem wakeParent_marker {p : Process} : (v.wakeParent p).marker = v.marker := by
  unfold wakeParent
  split <;> rfl

theorem wake_running_iff :
    ((v.wake c).record i).stage = .running ↔ (v.record i).stage = .running := by
  unfold wake
  dsimp only
  split
  · rename_i hsleeps
    rw [(Process.sleepsOn_iff.1 hsleeps).1]
    simp [Process.awaken]
  · rfl

theorem wakeParent_running_iff {p : Process} :
    ((v.wakeParent p).record i).stage = .running ↔ (v.record i).stage = .running := by
  unfold wakeParent
  split
  · exact wake_running_iff
  · rfl

theorem wakeParent_root {p : Process} : (v.wakeParent p).root = v.root := by
  unfold wakeParent
  split <;> rfl

/-- Waking the slots of a list in turn, all of them asleep. -/
theorem foldl_shift_awaken {xs : List Slot} (hnodup : xs.Nodup)
    (hxs : ∀ i ∈ xs, (v.record i).stage = .sleeping)
    (hqueue : (v.queue (.stage .sleeping)).Nodup) :
    xs.foldl (fun v i => v.shift i Process.awaken) v =
      { v with
        record := fun i => if i ∈ xs then (v.record i).awaken else v.record i
        queue := fun
          | .ready level =>
            v.queue (.ready level) ++ xs.filter fun i => (v.record i).priority == level
          | .stage .sleeping => (v.queue (.stage .sleeping)).filter fun i => i ∉ xs
          | place => v.queue place } := by
  induction xs generalizing v with
  | nil =>
    refine View.ext ?_ (funext fun place => ?_) rfl rfl rfl rfl
    · simp
    · rcases place with s | level
      · cases s <;> simp
      · simp
  | cons i xs ih =>
    obtain ⟨hnotin, hrest⟩ := List.nodup_cons.1 hnodup
    have hstage := hxs i List.mem_cons_self
    have hold : (v.record i).home = .stage .sleeping :=
      (Process.home_eq_stage_iff (by simp)).2 hstage
    have hnew : (v.record i).awaken.home = .ready (v.record i).priority := rfl
    have hrecord : ∀ j, j ≠ i → (v.shift i Process.awaken).record j = v.record j := by
      intro j hj
      rw [shift_record, Function.update_of_ne hj]
    have hshift : (v.shift i Process.awaken).queue =
        Function.update (Function.update v.queue (.stage .sleeping)
          ((v.queue (.stage .sleeping)).erase i)) (.ready (v.record i).priority)
          (v.queue (.ready (v.record i).priority) ++ [i]) := by
      simp [shift, append, revise, drop, hold, hnew]
    have hsleeping : (v.shift i Process.awaken).queue (.stage .sleeping) =
        (v.queue (.stage .sleeping)).erase i := by
      simp [hshift]
    have hothers : ∀ j ∈ xs, j ≠ i := by
      intro j hj
      rintro rfl
      exact hnotin hj
    -- the first slot is on its level before those of `xs` are appended
    rw [List.foldl_cons, ih hrest]
    · refine View.ext (funext fun j => ?_) (funext fun place => ?_) rfl rfl rfl rfl
      · by_cases hj : j = i
        · subst hj
          simp [hnotin]
        · simp [hrecord j hj, hj]
      · rcases place with s | level
        · cases s
          case sleeping =>
            simp only [hsleeping, hqueue.erase_eq_filter, List.filter_filter]
            refine List.filter_congr fun j _ => ?_
            simp [Bool.and_comm, bne, beq_eq_decide]
          all_goals simp [hshift]
        · have hfilter :
              xs.filter (fun j => ((v.shift i Process.awaken).record j).priority == level) =
                xs.filter fun j => (v.record j).priority == level :=
            List.filter_congr fun j hj => by rw [hrecord j (hothers j hj)]
          simp only [hfilter, hshift]
          by_cases hlevel : level = (v.record i).priority
          · subst hlevel
            simp
          · simp [hlevel, Ne.symm hlevel]
    · intro j hj
      rw [hrecord j (hothers j hj)]
      exact hxs j (List.mem_cons_of_mem _ hj)
    · rw [hsleeping]
      exact hqueue.erase i

end View

namespace Table

variable {P : Params} {t t' : Table P} {i : Slot} {c : Channel} {cpu : Cpu} {now : Nat}

/-! ### Waking -/

theorem Sound.yields_rouse (h : t.Sound) :
    Yields (i < P.capacity ∧ (t.record i).stage = .sleeping) (t.rouse i) fun t' =>
      (i < P.capacity ∧ (t.record i).stage = .sleeping) ∧ t'.Sound ∧
        t'.view = t.view.shift i Process.awaken :=
  h.yields_shift (h.valid.priority_le i)

theorem Sound.mem_sleeping_iff (h : t.Sound) :
    i ∈ t.queue (.stage .sleeping) ↔ (t.record i).stage = .sleeping := by
  rw [← members_of_ne (by simp), h.mem_members_iff_of_ne (by simp)]

/-- The sleepers of a channel, by the records. -/
theorem Sound.sleepers_eq_ok (h : t.Sound) (c : Channel) :
    t.sleepers c = .ok ((t.queue (.stage .sleeping)).filter fun i => (t.record i).sleepsOn c) := by
  unfold sleepers
  rw [members_of_ne (by simp)]
  refine filterM_eq_ok fun i hi => ?_
  have hstage := h.mem_sleeping_iff.1 hi
  rw [process_of_lt (lt_of_stage_eq hstage)]
  simp [Process.sleepsOn, hstage, pure, Except.pure, bind, Except.bind]

/-- Rousing sleeping slots in turn does not fault. -/
theorem Sound.foldlM_rouse_eq_ok (h : t.Sound) {xs : List Slot} (hnodup : xs.Nodup)
    (hxs : ∀ i ∈ xs, (t.record i).stage = .sleeping) :
    ∃ t', xs.foldlM rouse t = .ok t' ∧ t'.Sound ∧
      t'.view = xs.foldl (fun v i => v.shift i Process.awaken) t.view := by
  induction xs generalizing t with
  | nil => exact ⟨t, rfl, h, rfl⟩
  | cons i xs ih =>
    obtain ⟨hnotin, hrest⟩ := List.nodup_cons.1 hnodup
    have hstage := hxs i List.mem_cons_self
    obtain ⟨t₁, e₁, -, h₁, hview₁⟩ :=
      h.yields_rouse.exists_ok ⟨lt_of_stage_eq hstage, hstage⟩
    have hrecord : ∀ j ∈ xs, t₁.record j = t.record j := by
      intro j hj
      rw [← view_record, hview₁, View.shift_record, view_record,
        Function.update_of_ne (by rintro rfl; exact hnotin hj)]
    obtain ⟨t', e', h', hview'⟩ := ih h₁ hrest fun j hj => by
      rw [hrecord j hj]
      exact hxs j (List.mem_cons_of_mem _ hj)
    refine ⟨t', ?_, h', ?_⟩
    · rw [List.foldlM_cons, e₁]
      exact e'
    · rw [hview', hview₁, List.foldl_cons]

/-- Waking the sleepers of a channel, in one formula. -/
theorem Sound.wake_eq_ok (h : t.Sound) (c : Channel) :
    ∃ t', t.wake c = .ok (((t.queue (.stage .sleeping)).filter fun i =>
        (t.record i).sleepsOn c).length, t') ∧ t'.Sound ∧ t'.view = t.view.wake c := by
  have hnodup := h.nodup_queue (.stage .sleeping)
  have hxs : ∀ i ∈ (t.queue (.stage .sleeping)).filter fun i => (t.record i).sleepsOn c,
      (t.record i).stage = .sleeping := fun i hi => h.mem_sleeping_iff.1 (List.mem_filter.1 hi).1
  obtain ⟨t', e, h', hview⟩ := h.foldlM_rouse_eq_ok (hnodup.filter _) hxs
  refine ⟨t', ?_, h', ?_⟩
  · rw [wake, h.sleepers_eq_ok]
    change ((List.filter _ _).foldlM rouse t >>= _) = _
    rw [e]
    rfl
  rw [hview, View.foldl_shift_awaken (hnodup.filter _) hxs hnodup]
  -- the list holds all sleepers of the channel, so to be in it is to sleep on the channel
  have hmem : ∀ i, i ∈ (t.queue (.stage .sleeping)).filter (fun i => (t.record i).sleepsOn c) ↔
      (t.record i).sleepsOn c = true := by
    intro i
    rw [List.mem_filter, h.mem_sleeping_iff, and_iff_right_iff_imp, Process.sleepsOn_iff]
    exact And.left
  refine View.ext (funext fun i => ?_) (funext fun place => ?_) rfl rfl rfl rfl
  · exact if_congr (hmem i) rfl rfl
  · rcases place with s | level
    · cases s
      case sleeping =>
        refine List.filter_congr fun i _ => ?_
        simp only [hmem, view_record]
        cases (t.record i).sleepsOn c <;> rfl
      all_goals rfl
    · simp only [View.wake, view_queue, view_record, List.filter_filter]
      congr 1
      exact List.filter_congr fun i _ => Bool.and_comm _ _

theorem Orderly.wake_eq_ok (h : t.Orderly) (c : Channel) :
    ∃ t', t.wake c = .ok (((t.queue (.stage .sleeping)).filter fun i =>
        (t.record i).sleepsOn c).length, t') ∧ t'.Orderly ∧ t'.view = t.view.wake c := by
  obtain ⟨t', e, h', hview⟩ := h.sound.wake_eq_ok c
  refine ⟨t', e, h.of_running h' (fun i hi => ?_) (congrArg View.marker hview), hview⟩
  rw [← view_record, hview] at hi
  exact View.wake_running_iff.1 hi

theorem Orderly.signal_eq_ok (h : t.Orderly) (c : Channel) :
    ∃ t', t.signal c = .ok (((t.queue (.stage .sleeping)).filter fun i =>
        (t.record i).sleepsOn c).length, t') ∧ t'.Orderly ∧ t'.view = t.view.wake c := by
  obtain ⟨t', e, h', hview⟩ := h.wake_eq_ok c
  refine ⟨t', ?_, h', hview⟩
  rw [signal, e]
  change (t'.settle >>= _) = _
  rw [h'.settle_eq]
  rfl

theorem Orderly.tick_eq_ok (h : t.Orderly) :
    ∃ t', t.tick = .ok t' ∧ t'.Orderly ∧ t'.view = t.view.wake .ticks := by
  obtain ⟨t', e, h', hview⟩ := h.signal_eq_ok .ticks
  refine ⟨t', ?_, h', hview⟩
  rw [tick, e]
  rfl

theorem Sound.yields_wakeParent (h : t.Sound) {p : Process} :
    Yields (∀ j, p.parent = some j → j < P.capacity) (t.wakeParent p) fun t' =>
      t'.Sound ∧ t'.view = t.view.wakeParent p := by
  unfold wakeParent View.wakeParent
  cases hp : p.parent with
  | none => exact .ok ⟨h, rfl⟩
  | some j =>
    dsimp only
    refine (yields_process.restrict fun hg => hg j rfl).bind ?_
    rintro q ⟨_, hq⟩
    subst hq
    obtain ⟨t', e, h', hview⟩ := h.wake_eq_ok (.process (t.record j).pid)
    exact .bind_eq e (.pure ⟨h', hview⟩)

theorem Orderly.yields_wakeParent (h : t.Orderly) {p : Process} :
    Yields (∀ j, p.parent = some j → j < P.capacity) (t.wakeParent p) fun t' =>
      t'.Orderly ∧ t'.view = t.view.wakeParent p := by
  refine h.sound.yields_wakeParent.weaken fun t' ⟨h', hview⟩ => ⟨?_, hview⟩
  refine h.of_running h' (fun i hi => ?_)
    ((congrArg View.marker hview).trans View.wakeParent_marker)
  rw [← view_record, hview] at hi
  exact View.wakeParent_running_iff.1 hi

/-! ### Leaving the CPU -/

theorem Orderly.yields_depart (h : t.Orderly) :
    Yields (∃ i, t.occupant? cpu = some i ∧ (t.record i).stage ≠ .running ∧
        (t.record i).cpuTicks + (now - (t.record i).dispatchedAt) < word64) (t.depart cpu now)
      fun t' => t'.Orderly ∧ ∃ i, t.occupant? cpu = some i ∧ (t.record i).stage ≠ .running ∧
        t'.view = t.view.depart i now := by
  unfold depart
  refine yields_occupant_then fun i hi => ?_
  have hlt := h.sound.valid.marker_lt cpu i hi
  refine .bind_eq (process_of_lt hlt) ?_
  by_cases hstage : (t.record i).stage = .running
  · rw [if_pos hstage]
    exact .error (fun hg => hg.1 hstage) rfl
  · rw [if_neg hstage]
    refine (yields_addBelow.restrict And.right).bind ?_
    rintro cpuTicks ⟨_, hticks⟩
    subst hticks
    refine ((h.yields_revise (by simp) (by simp)).restrict fun _ => hlt).bind ?_
    rintro t' ⟨h', hview⟩
    rw [h'.settle_eq]
    exact .ok ⟨h', i, hi, hstage, hview⟩

/-- The running process of a CPU is charged, changed without staying on the CPU, and departs. -/
theorem Orderly.yields_leave (h : t.Orderly) {change : Process → Process}
    (hstage : ∀ p, (change p).stage ≠ .running)
    (hrest : ∀ p, (change p).priority = p.priority ∧ (change p).cpuTicks = p.cpuTicks ∧
      (change p).dispatchedAt = p.dispatchedAt) :
    Yields (∃ i, t.occupant? cpu = some i ∧ (t.record i).stage = .running ∧
        (t.record i).cpuTicks + (now - (t.record i).dispatchedAt) < word64) (t.leave cpu now change)
      fun t' => t'.Orderly ∧ ∃ i, t.occupant? cpu = some i ∧ (t.record i).stage = .running ∧
        t'.view = t.view.leave P i now change := by
  unfold leave
  refine yields_occupant_then fun i hi => ?_
  have hlt := h.sound.valid.marker_lt cpu i hi
  refine (h.sound.yields_unlist.restrict fun hg => ⟨hlt, hg.1⟩).bind ?_
  rintro t₁ ⟨⟨_, hrunning⟩, h₁, hview₁⟩
  refine ((h₁.yields_charge rfl).restrict fun _ => hlt).bind ?_
  rintro t₂ ⟨_, h₂, hview₂⟩
  refine ((h₂.yields_revise (f := change) ?_ fun hne => absurd rfl hne).restrict
    fun _ => hlt).bind fun t₃ ⟨_, h₃, hview₃⟩ => ?_
  · rw [(hrest _).1]
    exact h₂.valid.priority_le i
  refine (h₃.yields_enlist.restrict fun _ => hlt).bind ?_
  rintro t₄ ⟨_, h₄, hview₄⟩
  -- so far this has been a shift; it remains to depart
  have hview : t₄.view = t.view.shift i fun p => change (p.charge P.budget now) := by
    rw [hview₄, hview₃, hview₂, hview₁, View.revise_revise]
    rfl
  have hrecord : t₄.record i = change ((t.record i).charge P.budget now) := record_of_shift hview
  have hmarker : t₄.occupant? = t.occupant? := congrArg View.marker hview
  have h₄' : t₄.Orderly := h.of_update h₄ (congrArg View.record hview)
    (fun hs => absurd hs (hstage _)) hmarker
  refine h₄'.yields_depart.mono (fun ⟨_, hword⟩ => ?_)
    fun t' ⟨h', j, hj, hne, hview'⟩ => ⟨h', i, hi, hrunning, ?_⟩
  · refine ⟨i, by rw [hmarker, hi], by rw [hrecord]; exact hstage _, ?_⟩
    obtain ⟨priority, budget, echarge, -⟩ :=
      (t.record i).charge_eq P.budget now
    rw [hrecord, (hrest _).2.1, (hrest _).2.2, echarge]
    exact hword
  · rw [hmarker, hi] at hj
    cases hj
    rw [hview', hview]
    rfl

theorem Orderly.yields_yield (h : t.Orderly) :
    Yields (∃ i, t.occupant? cpu = some i ∧ (t.record i).stage = .running ∧
        (t.record i).cpuTicks + (now - (t.record i).dispatchedAt) < word64) (t.yield cpu now)
      fun t' => t'.Orderly ∧ ∃ i, t.occupant? cpu = some i ∧ (t.record i).stage = .running ∧
        t'.view = t.view.leave P i now fun p => { p with stage := .runnable } :=
  h.yields_leave (fun _ => by simp) fun _ => ⟨rfl, rfl, rfl⟩

theorem Orderly.yields_park (h : t.Orderly) :
    Yields (∃ i, t.occupant? cpu = some i ∧ (t.record i).stage = .running ∧
        (t.record i).cpuTicks + (now - (t.record i).dispatchedAt) < word64) (t.park cpu c now)
      fun t' => t'.Orderly ∧ ∃ i, t.occupant? cpu = some i ∧ (t.record i).stage = .running ∧
        t'.view = t.view.leave P i now fun p => { p with channel := some c, stage := .sleeping } :=
  h.yields_leave (fun _ => by simp) fun _ => ⟨rfl, rfl, rfl⟩

/-! ### Killing -/

theorem Orderly.yields_rouse (h : t.Orderly) :
    Yields (i < P.capacity ∧ (t.record i).stage = .sleeping) (t.rouse i) fun t' =>
      t'.Orderly ∧ (t.record i).stage = .sleeping ∧ t'.view = t.view.shift i Process.awaken := by
  refine h.sound.yields_rouse.weaken fun t' ⟨hg, h', hview⟩ => ⟨?_, hg.2, hview⟩
  exact h.of_update h' (congrArg View.record hview) nofun (congrArg View.marker hview)

/-- A kill is refused, or asks the process of a slot with the pid to end. -/
theorem Orderly.yields_kill (h : t.Orderly) {pid : Pid} :
    Yields True (t.kill pid) fun
      | .error _ => True
      | .ok t' => t'.Orderly ∧ ∃ i, (t.record i).pid = pid ∧ (t.record i).stage ≠ .unused ∧
          t'.view = t.view.kill i := by
  unfold kill
  have hfind := h.sound.find_eq_ok pid searched
  refine .bind_eq hfind ?_
  split
  · exact .ok trivial
  · rename_i i hi
    rw [hi] at hfind
    obtain ⟨-, hlt, hpid, hmem⟩ := h.sound.of_find_eq_some hfind
    have hstage : (t.record i).stage ≠ .unused := fun hs => by simp [hs, searched] at hmem
    refine ((h.yields_revise (by simp) (by simp)).restrict fun _ => hlt).bind ?_
    rintro t₁ ⟨h₁, hview₁⟩
    refine .bind_eq (process_of_lt hlt) ?_
    dsimp only
    unfold View.kill
    split
    · refine (h₁.yields_rouse.restrict fun _ => ⟨hlt, ‹_›⟩).bind ?_
      rintro t₂ ⟨h₂, _, hview₂⟩
      refine h₂.yields_settle.bind fun t₃ heq => ?_
      subst heq
      refine .pure ⟨h₂, i, hpid, hstage, ?_⟩
      rw [hview₂, ← hview₁]
      exact (if_pos ‹_›).symm
    · refine h₁.yields_settle.bind fun t₃ heq => ?_
      subst heq
      refine .pure ⟨h₁, i, hpid, hstage, ?_⟩
      rw [← hview₁]
      exact (if_neg ‹_›).symm

end Table

end FeedbackQueue
