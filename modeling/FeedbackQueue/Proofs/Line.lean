import FeedbackQueue.Proofs.Discipline

/-!
# The dispatch order

The ready levels, read from the highest down and each from its front, are one *line* of slots.  A
dispatch takes the first slot of the line that no CPU is marked with.  Everything else treats the
line as a stable queue: slots come in at the end of a level, slots that leave are taken out, and a
promotion sweep appends each level to the one above it, which does not change the line at all.

So a set of slots that wait is left alone, apart from moving up: `View.Retains` says of a change of
the view that the slots of a set stay runnable, in the same order, with nobody new before them at
the top.  Every act retains all runnable slots but the one that it dispatches or puts on another
level, and so does every run as long as this happens to none of them.

## Main definitions

* `View.line`, `Table.line` : the slots in dispatch order.
* `View.Retains` : a change that lets some slots wait as before.

## Main statements

* `View.line_sweep` : a promotion sweep leaves the line as it is.
* `Act.retains_apply` : an act retains the slots that it does not requeue.
* `Machine.retains_of_perform_eq_ok` : an event retains the slots that it does not requeue.
* `Machine.inLine_of_reaches` : what is dispatched, and the order of those who wait.
-/

namespace FeedbackQueue

/-- A list that a test leaves alike in two lists has its entries in the same order in both. -/
theorem pair_sublist_iff {α : Type} {xs ys : List α} {f : α → Bool} {a b : α}
    (h : xs.filter f = ys.filter f) (ha : f a = true) (hb : f b = true) :
    [a, b].Sublist xs ↔ [a, b].Sublist ys := by
  have key : ∀ zs : List α, [a, b].Sublist zs ↔ [a, b].Sublist (zs.filter f) := by
    intro zs
    constructor
    · intro hsub
      simpa [ha, hb] using hsub.filter f
    · exact fun hsub => hsub.trans List.filter_sublist
  rw [key xs, h, ← key ys]

/-- A change of the record of a runnable process that goes on waiting. -/
structure Process.Stays (p q : Process) : Prop where
  stage : q.stage = .runnable
  pid : q.pid = p.pid
  priority_le : p.priority ≤ q.priority

theorem Process.Stays.trans {p q r : Process} (h : p.Stays q) (h' : q.Stays r) : p.Stays r :=
  ⟨h'.stage, h'.pid.trans h.pid, Nat.le_trans h.priority_le h'.priority_le⟩

namespace View

variable {P : Params} {v w : View} {i j : Slot} {f : Process → Process} {c : Channel} {now : Nat}

/-- The slots of the ready levels, from the highest level down. -/
def line (P : Params) (v : View) : List Slot :=
  (List.range (P.maxPriority + 1)).reverse.flatMap fun level => v.queue (.ready level)

theorem members_runnable : v.members P .runnable = v.line P := rfl

/-- The slots of the top level come first. -/
theorem line_eq_append : v.line P = v.queue (.ready P.maxPriority) ++
    (List.range P.maxPriority).reverse.flatMap fun level => v.queue (.ready level) := by
  simp [line, List.range_succ]

theorem filter_line {stay : Slot → Bool} (h : ∀ level,
    (w.queue (.ready level)).filter stay = (v.queue (.ready level)).filter stay) :
    (w.line P).filter stay = (v.line P).filter stay := by
  simp only [line, List.filter_flatMap, h]

/-! ### Sweeps -/

/-- Below the top, the lifted levels are the old ones but the one next to the top. -/
theorem flatMap_sweep {k : Nat} (hk : k ≤ P.maxPriority) :
    (List.range k).reverse.flatMap (fun level => (v.sweep P).queue (.ready level)) =
      (List.range (k - 1)).reverse.flatMap fun level => v.queue (.ready level) := by
  induction k with
  | zero => rfl
  | succ k ih =>
    have hlevel : (v.sweep P).queue (.ready k) =
        if 0 < k then v.queue (.ready (k - 1)) else [] := by
      have hlt : k < P.maxPriority := hk
      have hle : k ≤ P.maxPriority := Nat.le_of_lt hlt
      simp [sweep, lift, hlt, hle]
    rw [List.range_succ, List.reverse_concat, List.flatMap_cons, hlevel,
      ih (Nat.le_of_succ_le hk)]
    cases k with
    | zero => rfl
    | succ j => simp [List.range_succ]

theorem sweep_queue_top : (v.sweep P).queue (.ready P.maxPriority) =
    v.queue (.ready P.maxPriority) ++
      if 0 < P.maxPriority then v.queue (.ready (P.maxPriority - 1)) else [] := by
  simp [sweep, lift]

/-- **A promotion sweep leaves the line as it is.** -/
theorem line_sweep : (v.sweep P).line P = v.line P := by
  rw [line_eq_append, line_eq_append, sweep_queue_top, flatMap_sweep (Nat.le_refl _)]
  cases hmax : P.maxPriority with
  | zero => simp
  | succ n => simp [List.range_succ]

theorem line_sweepIfDue : (v.sweepIfDue P now).line P = v.line P := by
  unfold sweepIfDue
  split
  · exact line_sweep
  · rfl

/-! ### Slots that wait -/

/-- A change of the view that lets the slots of a set wait as before. -/
structure Retains (P : Params) (S : Slot → Prop) (v w : View) : Prop where
  /-- They stay runnable and are not demoted. -/
  stays : ∀ i, S i → (v.record i).Stays (w.record i)
  /-- Any two of them keep their order. -/
  order : ∀ i j, S i → S j → ([i, j].Sublist (w.line P) ↔ [i, j].Sublist (v.line P))
  /-- At the top nobody new comes before one of them. -/
  top : ∀ i, S i → ∀ us vs, v.queue (.ready P.maxPriority) = us ++ i :: vs →
    ∃ us' vs', us'.Sublist us ∧ w.queue (.ready P.maxPriority) = us' ++ i :: vs'

variable {S : Slot → Prop}

theorem Retains.runnable (h : v.Retains P S w) : ∀ i, S i → (w.record i).stage = .runnable :=
  fun i hi => (h.stays i hi).stage

theorem Retains.trans {u : View} (h : u.Retains P S v) (h' : v.Retains P S w) :
    u.Retains P S w where
  stays i hi := (h.stays i hi).trans (h'.stays i hi)
  order i j hi hj := (h'.order i j hi hj).trans (h.order i j hi hj)
  top i hi us vs htop := by
    obtain ⟨us₁, vs₁, hsub₁, htop₁⟩ := h.top i hi us vs htop
    obtain ⟨us₂, vs₂, hsub₂, htop₂⟩ := h'.top i hi us₁ vs₁ htop₁
    exact ⟨us₂, vs₂, hsub₂.trans hsub₁, htop₂⟩

/-- Only records and ready levels matter. -/
theorem Retains.of_eq {w' : View} (h : v.Retains P S w) (hrecord : w'.record = w.record)
    (hqueue : w'.queue = w.queue) : v.Retains P S w' := by
  have hline : w'.line P = w.line P := by simp only [line, hqueue]
  exact ⟨hrecord ▸ h.stays, hline ▸ h.order, hqueue ▸ h.top⟩

/-- Records that change while the chains stay. -/
theorem retains_of_stays (hqueue : w.queue = v.queue)
    (hstays : ∀ i, S i → (v.record i).Stays (w.record i)) : v.Retains P S w := by
  have hline : w.line P = v.line P := by simp only [line, hqueue]
  exact ⟨hstays, fun i j _ _ => by rw [hline], fun i _ us vs htop =>
    ⟨us, vs, .refl us, by rw [hqueue, htop]⟩⟩

/-- Slots that are appended to the top come before nobody. -/
theorem top_of_append {new : List Slot} (hqueue : w.queue (.ready P.maxPriority) =
      v.queue (.ready P.maxPriority) ++ new) (us vs : List Slot)
    (htop : v.queue (.ready P.maxPriority) = us ++ i :: vs) :
    ∃ us' vs', us'.Sublist us ∧ w.queue (.ready P.maxPriority) = us' ++ i :: vs' :=
  ⟨us, vs ++ new, .refl us, by rw [hqueue, htop, List.append_assoc, List.cons_append]⟩

section Changes

variable (h : ∀ i, S i → (v.record i).stage = .runnable)
include h

theorem Retains.refl : v.Retains P S v :=
  retains_of_stays rfl fun i hi => ⟨h i hi, rfl, Nat.le_refl _⟩

/-- A change in place. -/
theorem retains_revise (hf : S i → (v.record i).Stays (f (v.record i))) :
    v.Retains P S (v.revise i f) := by
  refine retains_of_stays rfl fun j hj => ?_
  rw [revise_record, Function.update_apply]
  split
  · subst j
    exact hf hj
  · exact ⟨h j hj, rfl, Nat.le_refl _⟩

/-- A slot that is taken from place to place passes the others by. -/
theorem retains_shift (hi : ¬ S i) : v.Retains P S (v.shift i f) := by
  have hne : ∀ j, S j → j ≠ i := by
    rintro j hj rfl
    exact hi hj
  refine ⟨fun j hj => ?_, fun j k hj hk => ?_, fun j hj us vs htop => ?_⟩
  · rw [shift_record, Function.update_of_ne (hne j hj)]
    exact ⟨h j hj, rfl, Nat.le_refl _⟩
  · -- but for the slot itself every level is as before
    refine pair_sublist_iff (f := fun l => l ≠ i) (filter_line fun level => ?_)
      (by simpa using hne j hj) (by simpa using hne k hk)
    have herase : ((v.queue (.ready level)).erase i).filter (fun l => l ≠ i) =
        (v.queue (.ready level)).filter fun l => l ≠ i := by
      induction v.queue (.ready level) with
      | nil => rfl
      | cons k ks ih =>
        by_cases hk : k = i
        · simp [hk]
        · rw [List.erase_cons_tail (by simpa using hk)]
          simp only [List.filter_cons, ih]
    have hnew : ([i] : List Slot).filter (fun l => l ≠ i) = [] := by simp
    rw [shift_queue, List.filter_append]
    split_ifs <;> simp only [herase, hnew, List.filter_nil, List.append_nil]
  · rw [shift_queue, htop]
    generalize (if (f (v.record i)).home = .ready P.maxPriority then [i] else []) = new
    split
    · by_cases hmem : i ∈ us
      · refine ⟨us.erase i, vs ++ new, List.erase_sublist, ?_⟩
        rw [List.erase_append_left _ hmem, List.append_assoc, List.cons_append]
      · refine ⟨us, vs.erase i ++ new, .refl us, ?_⟩
        rw [List.erase_append_right _ hmem, List.erase_cons_tail (by simpa using hne j hj),
          List.append_assoc, List.cons_append]
    · exact ⟨us, vs ++ new, .refl us, by rw [List.append_assoc, List.cons_append]⟩

/-- A slot that is taken from place to place while its record may change before. -/
theorem retains_revise_shift {g : Process → Process} (hi : ¬ S i) :
    v.Retains P S ((v.revise i g).shift i f) := by
  have hrevise : v.Retains P S (v.revise i g) := retains_revise h fun hi' => absurd hi' hi
  exact hrevise.trans (retains_shift hrevise.runnable hi)

/-- Those who are woken come last. -/
theorem retains_wake : v.Retains P S (v.wake c) := by
  have hawake : ∀ j, S j → (v.record j).sleepsOn c = false := by
    intro j hj
    simp [Process.sleepsOn, h j hj]
  refine ⟨fun j hj => ?_, fun j k hj hk => ?_, fun j _ us vs htop => ?_⟩
  · simp only [wake, hawake j hj]
    exact ⟨h j hj, rfl, Nat.le_refl _⟩
  · refine pair_sublist_iff (f := fun l => !(v.record l).sleepsOn c)
      (filter_line fun level => ?_) (by simp [hawake j hj]) (by simp [hawake k hk])
    have hwoken : ((v.queue (.stage .sleeping)).filter fun l => !(v.record l).sleepsOn c &&
        ((v.record l).sleepsOn c && (v.record l).priority == level)) = [] := by
      rw [List.filter_eq_nil_iff]
      intro l _
      cases (v.record l).sleepsOn c <;> simp
    simp only [wake, List.filter_append, List.filter_filter, hwoken, List.append_nil]
  · exact top_of_append rfl us vs htop

theorem retains_wakeParent {p : Process} : v.Retains P S (v.wakeParent p) := by
  unfold wakeParent
  split
  · exact retains_wake h
  · exact .refl h

/-- Whoever is on the level below the top comes last. -/
theorem retains_sweep : v.Retains P S (v.sweep P) := by
  refine ⟨fun j hj => ?_, fun j k _ _ => by rw [line_sweep], fun j _ us vs htop => ?_⟩
  · obtain ⟨priority, budget, e⟩ := (v.record j).promote_eq (P := P)
    have hactive : (v.record j).stage.isActive = true := by rw [h j hj]; rfl
    simp only [sweep, hactive, if_true]
    refine ⟨by rw [e]; exact h j hj, by rw [e], ?_⟩
    unfold Process.promote
    split
    · exact Nat.le_succ _
    · exact Nat.le_refl _
  · exact top_of_append sweep_queue_top us vs htop

theorem retains_sweepIfDue : v.Retains P S (v.sweepIfDue P now) := by
  unfold sweepIfDue
  split
  · exact (retains_sweep h).of_eq rfl rfl
  · exact .refl h

theorem retains_reparent {xs : List Slot} : v.Retains P S (v.reparent i xs) := by
  refine retains_of_stays rfl fun j hj => ?_
  unfold reparent
  dsimp only
  split
  · exact ⟨h j hj, rfl, Nat.le_refl _⟩
  · exact ⟨h j hj, rfl, Nat.le_refl _⟩

theorem retains_adopt : v.Retains P S (v.adopt P i) := by
  have hreparent : v.Retains P S (v.reparent i (Table.searched.flatMap (v.members P))) :=
    retains_reparent h
  unfold adopt
  dsimp only
  split
  · split
    · exact hreparent.trans (retains_wake hreparent.runnable)
    · exact hreparent
  · exact hreparent

theorem not_mem_of_stage (hi : (v.record i).stage ≠ .runnable) : ¬ S i := fun hmem =>
  hi (h i hmem)

theorem retains_kill : v.Retains P S (v.kill i) := by
  have hrevise : v.Retains P S (v.revise i fun p => { p with killed := true }) :=
    retains_revise h fun hi => ⟨h i hi, rfl, Nat.le_refl _⟩
  unfold kill
  dsimp only
  split
  · rename_i hstage
    exact hrevise.trans (retains_shift hrevise.runnable
      (not_mem_of_stage hrevise.runnable (by rw [hstage]; nofun)))
  · exact hrevise

theorem retains_leave (hi : (v.record i).stage ≠ .runnable) :
    v.Retains P S (v.leave P i now f) := by
  have hnot := not_mem_of_stage h hi
  have hshift : v.Retains P S (v.shift i fun p => f (p.charge P.budget now)) := retains_shift h hnot
  exact hshift.trans (retains_revise hshift.runnable fun hmem => absurd hmem hnot)

theorem retains_retire (hi : (v.record i).stage = .running) :
    v.Retains P S (v.retire P i now) := by
  have hnot := not_mem_of_stage h (i := i) (by rw [hi]; nofun)
  have hwake : v.Retains P S (v.wakeParent (v.record i)) := retains_wakeParent h
  have hadopt := hwake.trans (retains_adopt hwake.runnable (i := i))
  have hshift := hadopt.trans (retains_shift hadopt.runnable (f := Process.enter .zombie) hnot)
  have hsize := hshift.trans (retains_revise hshift.runnable (f := fun p => { p with size := 0 })
    fun hmem => absurd hmem hnot)
  exact hsize.trans (retains_revise hsize.runnable fun hmem => absurd hmem hnot)

theorem retains_reclaim {cpu : Cpu} : v.Retains P S (v.reclaim P cpu i now) := by
  have hmark : v.Retains P S (v.mark cpu none) := (Retains.refl h).of_eq rfl rfl
  unfold reclaim
  dsimp only
  split
  · have hwake := hmark.trans (retains_wakeParent hmark.runnable (p := (v.mark cpu none).record i))
    exact hwake.trans (retains_sweepIfDue hwake.runnable)
  · exact hmark.trans (retains_sweepIfDue hmark.runnable)

theorem retains_assign {priority : Nat} (hi : ¬ S i) : v.Retains P S (v.assign P i priority) := by
  unfold assign
  dsimp only
  split
  · exact retains_shift h hi
  · exact retains_revise h fun hmem => absurd hmem hi

end Changes

end View

/-! ### Acts -/

namespace Act

variable {P : Params} {v w : View} {a : Act} {S : Slot → Prop}

/-- The slot that an act takes off its level: it is dispatched, or put on another level. -/
def requeues? : Act → Option Slot
  | dispatch _ handoff _ => some handoff.slot
  | assign i _ => some i
  | _ => none

/-- An act retains runnable slots, except for the one that it takes off its level. -/
theorem retains_apply (he : a.Enabled v) (h : ∀ i, S i → (v.record i).stage = .runnable)
    (ha : ∀ i, a.requeues? = some i → ¬ S i) : v.Retains P S (a.apply P v) := by
  have hnot : ∀ {i : Slot} {s : Stage}, (v.record i).stage = s → s ≠ .runnable → ¬ S i :=
    fun hs hne => View.not_mem_of_stage h (hs ▸ hne)
  cases a with
  | conceive i now => exact (View.retains_shift h (hnot he.2 (by decide))).of_eq rfl rfl
  | giveStack | surrender | depart | setUid | setGid =>
    rw [apply]
    exact View.retains_revise h fun hi => ⟨h _ hi, rfl, Nat.le_refl _⟩
  | discard i => exact View.retains_revise_shift h (hnot he (by decide))
  | abandon i =>
    have hi : ¬ S i := hnot he (by decide)
    have hstack := View.retains_revise (P := P) h (f := fun p => { p with stack := none })
      fun hmem => absurd hmem hi
    exact hstack.trans (View.retains_revise_shift hstack.runnable hi)
  | crown i name space =>
    have hi : ¬ S i := hnot he.2 (by decide)
    have hcrown : v.Retains P S { v.revise i (Process.crown name space) with root := some i } :=
      (View.retains_revise h fun hmem => absurd hmem hi).of_eq rfl rfl
    exact hcrown.trans (View.retains_shift hcrown.runnable hi)
  | copy => exact .refl h
  | launch i => exact View.retains_revise_shift h (hnot he (by decide))
  | retire cpu i now => exact View.retains_retire h he.2
  | reap cpu me i => exact View.retains_revise_shift h (hnot he.2.1 (by decide))
  | await =>
    rw [apply]
    exact View.retains_leave h (by rw [he.2.1]; decide)
  | park | yield =>
    rw [apply]
    exact View.retains_leave h (by rw [he.2]; decide)
  | dispatch cpu handoff now => exact (View.retains_shift h (ha _ rfl)).of_eq rfl rfl
  | reclaim => exact View.retains_reclaim h
  | sweep => exact View.retains_sweep h
  | sweepIfDue => exact View.retains_sweepIfDue h
  | wake => exact View.retains_wake h
  | rouse i => exact View.retains_shift h (hnot he (by decide))
  | kill => exact View.retains_kill h
  | assign i priority => exact View.retains_assign h (ha i rfl)

/-- Acts in turn. -/
theorem retains_of_follows {acts : List Act} (hfollows : v.Follows P acts w)
    (h : ∀ i, S i → (v.record i).stage = .runnable)
    (ha : ∀ a ∈ acts, ∀ i, a.requeues? = some i → ¬ S i) : v.Retains P S w :=
  hfollows.preserves (I := v.Retains P S) (.refl h) fun _ a hmem he hu =>
    hu.trans (retains_apply he hu.runnable (ha a hmem))

end Act

/-! ### Events -/

/-- An event asks for the process with a pid to be put on a level. -/
def Event.Assigns (e : Event) (pid : Pid) : Prop :=
  ∃ priority clock, e = .start (.setPriority pid priority) clock

namespace Machine

variable {P : Params} {m m₁ : Machine P} {e : Event} {p : Progress} {S : Slot → Prop}

/-- A request to put a process on a level, whatever comes of it. -/
theorem retains_of_setPriority {pid : Pid} {priority : Nat} {clock : Clock} (h : m.table.Orderly)
    (hperform : m.perform (.start (.setPriority pid priority) clock) = .ok (p, m₁))
    (hS : ∀ i, S i → (m.table.record i).stage = .runnable ∧ (m.table.record i).pid ≠ pid) :
    m.table.view.Retains P S m₁.table.view := by
  have hrunnable : ∀ i, S i → (m.table.record i).stage = .runnable := fun i hi => (hS i hi).1
  obtain ⟨⟨q, t⟩, hstretch, hafter⟩ := bind_eq_ok.1 hperform
  obtain ⟨result, hresult, hend⟩ := bind_eq_ok.1 hstretch
  have hyields := h.yields_setPriority.of_ok hresult
  cases result with
  | error why =>
    cases hend
    cases hafter
    exact .refl hrunnable
  | ok t' =>
    obtain ⟨-, -, i, hpid, -, hview⟩ := hyields
    cases hend
    cases hafter
    change m.table.view.Retains P S t.view
    rw [hview]
    exact View.retains_assign hrunnable fun hi => (hS i hi).2 hpid

/-- An event retains runnable slots that it neither dispatches nor is asked to put on a level. -/
theorem retains_of_perform_eq_ok (h : m.table.Orderly) (hperform : m.perform e = .ok (p, m₁))
    (hrunnable : ∀ i, S i → (m.table.record i).stage = .runnable)
    (hassigns : ∀ i, S i → ¬ e.Assigns (m.table.record i).pid)
    (hout : ∀ i, S i → ∀ cpu pid, e.givesOut p ≠ some (cpu, ⟨i, pid⟩)) :
    m.table.view.Retains P S m₁.table.view := by
  by_cases hset : ∃ pid priority clock, e = .start (.setPriority pid priority) clock
  · obtain ⟨pid, priority, clock, rfl⟩ := hset
    refine retains_of_setPriority h hperform fun i hi => ⟨hrunnable i hi, ?_⟩
    rintro rfl
    exact hassigns i hi ⟨priority, clock, rfl⟩
  obtain ⟨-, -, acts, hfollows, hscript⟩ := of_perform_eq_ok h hperform
  refine Act.retains_of_follows hfollows hrunnable fun a ha i hi hmem => ?_
  cases a with
  | dispatch cpu handoff now =>
    cases hi
    -- the act is the only one, and its handoff is given out
    rcases (Event.course_of_script hscript).quiet_or with
      ⟨hquiet, -⟩ | ⟨cpu', handoff', now', rfl, hgives, -⟩ | ⟨_, _, _, rfl, -⟩
    · cases hquiet _ ha
    · cases List.mem_singleton.1 ha
      exact hout _ hmem _ _ hgives
    · cases List.mem_singleton.1 ha
  | assign j priority =>
    obtain ⟨pid, now, rfl⟩ := Event.owns_of_script hscript _ ha
    exact hset ⟨pid, priority, now, rfl⟩
  | _ => cases hi

/-- A process whose handoff has been given out runs. -/
theorem running_of_givesOut {cpu : Cpu} {handoff : Handoff} (h : m.table.Orderly)
    (hperform : m.perform e = .ok (p, m₁)) (hout : e.givesOut p = some (cpu, handoff)) :
    (m₁.table.record handoff.slot).stage = .running := by
  obtain ⟨-, -, acts, hfollows, hscript⟩ := of_perform_eq_ok h hperform
  rcases (Event.course_of_script hscript).quiet_or with
    ⟨-, -, hnone⟩ | ⟨cpu', handoff', now, rfl, hgives, -⟩ | ⟨_, _, _, -, -, hnone⟩
  · rw [hnone] at hout
    cases hout
  · rw [hgives] at hout
    cases hout
    obtain ⟨-, hview⟩ := hfollows
    have hrecord : m₁.table.record = _ := congrArg View.record hview
    rw [hrecord]
    simp [Act.apply, View.dispatch, Process.dispatch]
  · rw [hnone] at hout
    cases hout

end Machine

/-! ### Runs -/

namespace Table

variable {P : Params} {t : Table P}

/-- The slots of the ready levels, from the highest level down and each from its front. -/
def line (t : Table P) : List Slot :=
  (List.range (P.maxPriority + 1)).reverse.flatMap fun level => t.queue (.ready level)

theorem line_eq : t.line = t.view.line P := rfl

/-- A dispatch takes the first slot of the line that is on no CPU. -/
theorem next?_eq : t.next? = t.line.find? fun i => !t.isMarked i := by
  unfold next?
  rw [members_eq, View.members_runnable, line_eq]

end Table

namespace Machine

variable {P : Params} {m m₁ : Machine P} {S : Slot → Prop}

/-- The slots of a set are runnable, and an event asks for none of them to be put on a level. -/
def LeavesInLine (S : Slot → Prop) (m : Machine P) (e : Event) : Prop :=
  ∀ i, S i → (m.table.record i).stage = .runnable ∧ ¬ e.Assigns (m.table.record i).pid

/-- A grant retains all runnable slots. -/
theorem Grants.retains {i : Slot} {files : Multiset FileHandle} {t : Table P}
    (h : m.Grants i files t) (hm : m.table.Orderly)
    (hrunnable : ∀ i, S i → (m.table.record i).stage = .runnable) :
    m.table.view.Retains P S t.view := by
  obtain ⟨-, files', cwd, hview, -⟩ := h.exists_view hm
  rw [hview]
  exact View.retains_revise hrunnable fun hi => ⟨hrunnable _ hi, rfl, Nat.le_refl _⟩

/-- A run in which some slots are runnable throughout retains them. -/
theorem Reaches.retains (h : Reaches (LeavesInLine S) m m₁) (hm : m.table.Orderly)
    (hend : ∀ i, S i → (m₁.table.record i).stage = .runnable) :
    m.table.view.Retains P S m₁.table.view := by
  obtain ⟨steps, hrun, hleaves⟩ := h
  induction hrun with
  | nil => exact .refl hend
  | event hrun _ hperform ih =>
    obtain ⟨hpast, hlast⟩ := List.forall_mem_append.1 hleaves
    have hleaves := hlast _ List.mem_cons_self
    have h₁ := hrun.orderly hm
    have hrunnable := fun i hi => (hleaves i hi).1
    refine (ih hrunnable hpast).trans (retains_of_perform_eq_ok h₁ hperform hrunnable
      (fun i hi => (hleaves i hi).2) fun i hi cpu pid hout => ?_)
    -- whoever is dispatched is not runnable at the end of the event
    have hrunning := running_of_givesOut h₁ hperform hout
    rw [hend i hi] at hrunning
    cases hrunning
  | grant hrun hgrants ih =>
    have h₁ := hrun.orderly hm
    have hrunnable := fun i hi => (hgrants.stage_eq h₁ i).symm.trans (hend i hi)
    exact (ih hrunnable hleaves).trans (hgrants.retains h₁ hrunnable)

/-- The line is served from its front, and keeps its order. -/
structure InLine (m : Machine P) : Prop where
  /-- A dispatch on an idle CPU takes the first slot that is on no CPU, and changes nothing where
  there is none. -/
  first : ∀ cpu clock, cpu < P.cpus → m.table.occupant? cpu = none →
    match m.table.line.find? (fun i => !m.table.isMarked i) with
    | some i => ∃ m₁, m.perform (.start (.dispatch cpu) clock) =
        .ok (.returned (.dispatched (some ⟨i, (m.table.record i).pid⟩)), m₁)
    | none => m.perform (.start (.dispatch cpu) clock) = .ok (.returned (.dispatched none), m)
  /-- Slots that stay runnable and are not put on another level keep their order. -/
  stable : ∀ m₁ S, Reaches (LeavesInLine S) m m₁ →
    (∀ i, S i → (m₁.table.record i).stage = .runnable) →
    ∀ i j, S i → S j → ([i, j].Sublist m₁.table.line ↔ [i, j].Sublist m.table.line)
  /-- A promotion sweep leaves the line as it is. -/
  sweep : ∀ request, request = .sweep ∨ (∃ due, request = .sweepIfDue due) → ∀ clock p m₁,
    m.perform (.start request clock) = .ok (p, m₁) → m₁.table.line = m.table.line

theorem inLine_of_orderly (h : m.table.Orderly) : m.InLine where
  first cpu clock hcpu hidle := by
    have hyields : Yields _ (m.table.dispatch cpu clock.now) _ := h.yields_dispatch
    obtain ⟨result, hdispatch, hresult⟩ := hyields.exists_ok ⟨hcpu, hidle⟩
    rw [← Table.next?_eq]
    cases result with
    | none =>
      rw [hresult.2]
      simp only [perform, stretch, Request.start, hdispatch]
      rfl
    | some x =>
      obtain ⟨⟨i, pid⟩, t⟩ := x
      obtain ⟨-, -, hnext, hpid, -⟩ := hresult
      rw [hnext]
      dsimp only at hpid ⊢
      rw [← hpid]
      refine ⟨m.after (.start (.dispatch cpu) clock) (.returned (.dispatched (some ⟨i, pid⟩))) t,
        ?_⟩
      simp only [perform, stretch, Request.start, hdispatch]
      rfl
  stable m₁ S hrun hend i j hi hj := (hrun.retains h hend).order i j hi hj
  sweep request hsweep clock p m₁ hperform := by
    obtain ⟨-, -, acts, hfollows, hscript⟩ := of_perform_eq_ok h hperform
    rw [Table.line_eq, Table.line_eq]
    rcases hsweep with rfl | ⟨due, rfl⟩
    · obtain ⟨rfl, -⟩ := hscript
      rw [hfollows.eq_apply]
      exact View.line_sweep
    · obtain ⟨rfl, -⟩ := hscript
      rw [hfollows.eq_apply]
      exact View.line_sweepIfDue

/-- **The ready levels are a stable priority queue**, in every state of every run. -/
theorem inLine_of_reaches {t : Table P} {now : Nat} (hcreate : Table.create P now = .ok (.ok t))
    (hrun : Reaches (fun _ _ => True) { table := t } m) : m.InLine :=
  inLine_of_orderly (hrun.orderly (Table.orderly_of_create hcreate).1)

/-- A root process on one CPU and its child, with a duplicate of its file, in line: another CPU
takes the child. -/
theorem inLine_of_forking : ∃ (t : Table ⟨2, 1, 1, 1, 2, true⟩) (m : Machine _),
    Table.create _ 0 = .ok (.ok t) ∧ Reaches (fun _ _ => True) { table := t } m ∧
      (m.table.record 1).files = [⟨8⟩] ∧ m.table.line = [1, 0] ∧ m.InLine ∧
      ∃ m', m.perform (.start (.dispatch 1) 0) =
        .ok (.returned (.dispatched (some ⟨1, 2⟩)), m') := by
  obtain ⟨t, hcreate, hleads⟩ : ∃ t : Table ⟨2, 1, 1, 1, 2, true⟩,
      Table.create _ 0 = .ok (.ok t) ∧ Leads (fun _ _ => True)
        (fun m => ∃ t', m.Grants 0 {⟨7⟩} t' ∧ Leads (fun _ _ => True) (fun m =>
          (m.table.record 1).files = [⟨8⟩] ∧ m.table.line = [1, 0] ∧
          m.table.line.find? (fun i => !m.table.isMarked i) = some 1 ∧
          (m.table.record 1).pid = 2 ∧ m.table.occupant? 1 = none)
          [.start (.fork 0) 0,
            .answer ⟨some 1, .allocating 1 (.child { rootPlan with files := [⟨7⟩] })⟩ (some ⟨1⟩) 0,
            .answer ⟨some 1, .copying 1 { rootPlan with files := [⟨7⟩] } ⟨0⟩⟩ (some ⟨1⟩) 0,
            .answer ⟨some 1, .duplicating 1 { rootPlan with files := [⟨7⟩] } ⟨1⟩ [] ⟨7⟩ []⟩ ⟨8⟩ 0,
            .start (.yield 0) 0]
          { m with table := t' })
      [.start (.boot "" []) 0, .answer ⟨none, .allocating 0 (.root "" [])⟩ (some ⟨0⟩) 0,
        .answer ⟨none, .mapping 0 "" []⟩ (some ⟨0⟩) 0, .start (.dispatch 0) 0]
      { table := t } := by
    refine ⟨_, rfl, trivial, trivial, _, _, rfl, ?_⟩
    refine ⟨List.mem_cons_self, trivial, _, _, rfl, ?_⟩
    refine ⟨List.mem_cons_self, trivial, _, _, rfl, ?_⟩
    refine ⟨trivial, trivial, _, _, rfl, ?_⟩
    refine ⟨_, grants_of_tasks [⟨7⟩] rfl rfl rfl rfl, ?_⟩
    refine ⟨trivial, trivial, _, _, rfl, ?_⟩
    refine ⟨List.mem_cons_self, trivial, _, _, rfl, ?_⟩
    refine ⟨List.mem_cons_self, trivial, _, _, rfl, ?_⟩
    refine ⟨List.mem_cons_self, trivial, _, _, rfl, ?_⟩
    refine ⟨trivial, trivial, _, _, rfl, ?_⟩
    exact ⟨rfl, rfl, rfl, rfl, rfl⟩
  obtain ⟨m, hrun, hfiles, hline, hfind, hpid, hidle⟩ := hleads.exists_reaches_grant
  have hinLine := inLine_of_reaches hcreate hrun
  refine ⟨t, m, hcreate, hrun, hfiles, hline, hinLine, ?_⟩
  have hfirst := hinLine.first 1 0 (by decide) hidle
  simpa only [hfind, hpid] using hfirst

end Machine

end FeedbackQueue
