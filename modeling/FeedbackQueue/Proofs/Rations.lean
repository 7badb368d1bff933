import FeedbackQueue.Proofs.Stints

/-!
# The ration of a level

A process may run at one level for so many ticks as its budget had when it came there, however it
cuts them into stints.  A stint that ends in a yield or a sleep is charged whichever way it ends, so
the stints of a process add up, and the first one with which they reach the budget costs a level.
Nothing that other processes do in between plays a part.

## Main definitions

* `Rationed` : the rule, by the sums of stints.
* `Machine.dispatched?` : the last dispatch of the process in a slot.
* `Machine.spells` : the lengths of its stints that end in a yield or a sleep, each from its
  dispatch.

## Main statements

* `Rationed.turn` : one turn.
* `Machine.History.dispatched` : a process has been running since its last dispatch.
* `Machine.rationed_of_history` : the stints of a process in any stretch of a run keep to the rule.
-/

namespace FeedbackQueue

/-- What stints of the given lengths make of a level and of the ticks that are left there. -/
inductive Rationed (full : Int) :
    (level : Nat) → (left : Int) → (stints : List Nat) → (level' : Nat) → (left' : Int) → Prop
  /-- Stints that do not reach the ticks that are left come off them. -/
  | within {level : Nat} {left : Int} {stints : List Nat} : (stints.sum : Nat) < left →
      Rationed full level left stints level (left - (stints.sum : Nat))
  /-- The first stint with which they do costs a level, and the rule starts again. -/
  | refill {level level' : Nat} {left left' : Int} {before after : List Nat} {last : Nat} :
      (before.sum : Nat) < left → left ≤ (before.sum + last : Nat) →
      Rationed full (level - 1) full after level' left' →
      Rationed full level left (before ++ last :: after) level' left'

namespace Rationed

variable {full left left' : Int} {level level' last : Nat} {stints : List Nat}

theorem nil (h : 0 < left) : Rationed full level left [] level left := by
  have hwithin : Rationed full level left [] level (left - ([] : List Nat).sum) := .within h
  simpa using hwithin

theorem level_le (h : Rationed full level left stints level' left') : level' ≤ level := by
  induction h with
  | within => exact Nat.le_refl _
  | refill _ _ _ ih => exact Nat.le_trans ih (Nat.sub_le _ _)

/-- Who has kept its level, unless it is the lowest, has not run for the ticks that it had left. -/
theorem sum_lt (h : Rationed full level left stints level' left') (hpos : 0 < level)
    (hsame : level' = level) : (stints.sum : Nat) < left := by
  cases h with
  | within hlt => exact hlt
  | refill _ _ hrest =>
    have hle := hrest.level_le
    omega

/-- One more stint that does not reach the ticks that are left. -/
theorem append_of_lt (h : Rationed full level left stints level' left') (hlt : last < left') :
    Rationed full level left (stints ++ [last]) level' (left' - last) := by
  induction h with
  | @within level left stints hsum =>
    have hadd : (stints ++ [last]).sum = stints.sum + last := by simp
    have hleft : left - (stints.sum : Nat) - last = left - ((stints ++ [last]).sum : Nat) := by
      rw [hadd]
      omega
    rw [hleft]
    exact .within (by omega)
  | refill hbefore hlast _ ih =>
    rw [List.append_assoc, List.cons_append]
    exact .refill hbefore hlast (ih hlt)

/-- One more stint that does. -/
theorem append_of_le (h : Rationed full level left stints level' left') (hfull : 0 < full)
    (hle : left' ≤ last) : Rationed full level left (stints ++ [last]) (level' - 1) full := by
  induction h with
  | within hsum => exact .refill hsum (by omega) (.nil hfull)
  | refill hbefore hlast _ ih =>
    rw [List.append_assoc, List.cons_append]
    exact .refill hbefore hlast (ih hle)

end Rationed

namespace Turn

/-- The length of the stint since `since` that a turn ends. -/
def spell? (since : Nat) : Turn → Option Nat
  | leave now => some (now - since)
  | _ => none

end Turn

/-- **One turn keeps to the rule**, unless it promotes the process or puts it on a level. -/
theorem Rationed.turn {P : Params} {s : Standing} {τ : Turn} {level : Nat} {left : Int}
    {stints : List Nat} (h : Rationed P.budget level left stints s.priority s.budget)
    (hfull : 0 < P.budget) (hpromoted : τ = .sweep → P.maxPriority ≤ s.priority)
    (hassigned : ∀ priority, τ ≠ .assign priority) :
    Rationed P.budget level left (stints ++ (τ.spell? s.since).toList) (s.turn P τ).priority
      (s.turn P τ).budget := by
  cases τ with
  | dispatch now => simpa [Turn.spell?, Standing.turn] using h
  | leave now =>
    simp only [Turn.spell?, Option.toList_some, Standing.turn]
    split
    · exact h.append_of_le hfull (by omega)
    · exact h.append_of_lt (by omega)
  | sweep => simpa [Turn.spell?, Standing.turn, Nat.not_lt.2 (hpromoted rfl)] using h
  | assign priority => exact absurd rfl (hassigned priority)

/-! ### Dispatches -/

/-- The reading at which a shift begins a stint of the process in a slot. -/
def Shift.begin? (i : Slot) : Shift → Option Nat
  | on j now => if j = i then some now else none
  | off _ => none

/-- Whoever is running has just been dispatched, or has been running before. -/
theorem Process.Clocks.begin {p q : Process} {i : Slot} {shift : Option Shift}
    (h : p.Clocks i shift q) (hrunning : q.stage = .running) :
    shift.bind (Shift.begin? i) = some q.dispatchedAt ∨
      shift.bind (Shift.begin? i) = none ∧ p.stage = .running ∧
        q.dispatchedAt = p.dispatchedAt := by
  cases h with
  | stays hslot htimes hiff =>
    refine .inr ⟨?_, hiff.1 hrunning, htimes.dispatchedAt⟩
    cases shift with
    | none => rfl
    | some s =>
      cases s with
      | on j now => exact if_neg (hslot _ rfl)
      | off stint => rfl
  | begins hshift =>
    rw [hshift]
    exact .inl (if_pos rfl)
  | ends _ _ _ _ _ hafter => exact absurd hrunning hafter

/-- The turn that ends a stint is the deed to leave the CPU. -/
theorem Deed.of_turn_eq_leave {P : Params} {v : View} {i : Slot} {asked : Bool} {d : Deed}
    {now : Nat} (h : d.turn? P v i asked = some (.leave now)) :
    ∃ cpu, d = .leave cpu now ∧ v.marker cpu = some i := by
  cases d with
  | leave cpu reading =>
    obtain ⟨hmarker, hturn⟩ := Option.ite_none_right_eq_some.1 h
    cases hturn
    exact ⟨cpu, rfl, hmarker⟩
  | dispatch | sweep | sweepIfDue | reclaim =>
    obtain ⟨-, hturn⟩ := Option.ite_none_right_eq_some.1 h
    cases hturn
  | assign => cases asked <;> cases h
  | _ => cases h

namespace Act

variable {P : Params} {v : View} {a : Act} {i : Slot} {d : Deed} {cpu : Cpu} {now : Nat}

/-- The same for an act, whatever it does to the ticks of the process. -/
theorem begin_apply (h : a.Enabled v) (hd : a.deed? = some d)
    (hrunning : ((a.apply P v).record i).stage = .running) :
    (d.shift? v).bind (Shift.begin? i) = some ((a.apply P v).record i).dispatchedAt ∨
      (d.shift? v).bind (Shift.begin? i) = none ∧ (v.record i).stage = .running ∧
        ((a.apply P v).record i).dispatchedAt = (v.record i).dispatchedAt := by
  by_cases hdepart : ∃ cpu j now, a = .depart cpu j now
  · obtain ⟨cpu, j, now, rfl⟩ := hdepart
    cases hd
    refine .inr ⟨rfl, ?_⟩
    rw [apply, View.depart, View.revise_record, Function.update_apply] at hrunning ⊢
    split at hrunning
    · subst i
      rw [if_pos rfl]
      exact ⟨hrunning, rfl⟩
    · rw [if_neg ‹_›]
      exact ⟨hrunning, rfl⟩
  · refine (clocks_of_running h hd ?_ (.inr hrunning)).begin hrunning
    rintro cpu j now rfl
    exact hdepart ⟨cpu, j, now, rfl⟩

/-- Who leaves its CPU in a yield or a sleep has been running. -/
theorem running_of_leave (h : a.Enabled v) (hd : a.deed? = some (.leave cpu now))
    (hmarker : v.marker cpu = some i) : (v.record i).stage = .running := by
  cases a with
  | await cpu j now | park cpu j _ now | yield cpu j now =>
    cases hd
    cases hmarker.symm.trans h.1
    first | exact h.2 | exact h.2.1
  | _ => cases hd

end Act

namespace Machine

variable {P : Params} {m m₁ : Machine P} {e : Event} {p : Progress}
  {steps past stretch : List (Step P)} {s : Step P} {i : Slot} {now : Nat}

/-- The reading of the clock at the last dispatch of the process in a slot. -/
def dispatched? (steps : List (Step P)) (i : Slot) : Option Nat :=
  ((shifts steps).filterMap (Shift.begin? i)).getLast?

theorem dispatched?_append : dispatched? (steps ++ [s]) i =
    (s.shift?.bind (Shift.begin? i)).or (dispatched? steps i) := by
  unfold dispatched?
  rw [shifts_append, List.filterMap_append, List.getLast?_append]
  cases s.shift? with
  | none => rfl
  | some shift =>
    rw [Option.toList_some, filterMap_singleton, Option.bind_some]
    cases shift.begin? i <;> rfl

/-- **A process has been running since its last dispatch.** -/
theorem History.dispatched (h : m.History steps m₁) (hm : m.table.Orderly)
    (hnew : (m.table.record i).stage ≠ .running)
    (hrunning : (m₁.table.record i).stage = .running) :
    dispatched? steps i = some (m₁.table.record i).dispatchedAt := by
  induction h with
  | nil => exact absurd hrunning hnew
  | @event past m₂ m₃ e p hrun _ hperform ih =>
    rw [dispatched?_append]
    cases does_of_perform_eq_ok (hrun.orderly hm) hperform with
    | steady hdeed hsteady =>
      have hrecord := hsteady.record i
      simp only [Table.view_record] at hrecord
      rw [Step.shift?, hdeed, Option.bind_none, Option.bind_none, Option.none_or,
        ih (hrecord.running.1 hrunning), hrecord.dispatchedAt]
    | deed hdeed ha _ hu he hw =>
      have hbefore := hu.record i
      have hafter := hw.record i
      simp only [Table.view_record] at hbefore hafter
      rw [shift_of_deed hdeed hu, hafter.dispatchedAt]
      rcases Act.begin_apply he ha (hafter.running.1 hrunning) with hbegin | ⟨hnone, hran, hsame⟩
      · rw [hbegin, Option.some_or]
      · rw [hnone, Option.none_or, ih (hbefore.running.1 hran), hsame, hbefore.dispatchedAt]
  | grant hrun hgrants ih =>
    have hrecord := (hgrants.steady (hrun.orderly hm)).record i
    simp only [Table.view_record] at hrecord
    rw [ih (hrecord.running.1 hrunning), hrecord.dispatchedAt]

/-- Who leaves its CPU in a yield or a sleep has been running. -/
theorem running_of_turn (h : m.table.Orderly) (hperform : m.perform e = .ok (p, m₁))
    (hturn : (Step.mk m e p).turn? i = some (.leave now)) :
    (m.table.record i).stage = .running := by
  obtain ⟨d, hd, hleave⟩ := Option.bind_eq_some_iff.1 hturn
  obtain ⟨cpu, rfl, hmarker⟩ := Deed.of_turn_eq_leave hleave
  cases does_of_perform_eq_ok h hperform with
  | steady hdeed => cases hd.symm.trans hdeed
  | deed hdeed ha _ hu he =>
    cases hd.symm.trans hdeed
    exact (hu.record i).running.1 (Act.running_of_leave he ha (hu.marker ▸ hmarker))

/-! ### Stretches -/

/-- The length of the stint that a step ends in a yield or a sleep of the process in a slot, from
its last dispatch. -/
def Step.spell? (past : List (Step P)) (i : Slot) (s : Step P) : Option Nat :=
  match s.turn? i, dispatched? past i with
  | some (.leave now), some since => some (now - since)
  | _, _ => none

/-- The lengths of the stints that the process in a slot ends in a yield or a sleep, in a stretch
after the steps of the past. -/
def spells (i : Slot) : (past stretch : List (Step P)) → List Nat
  | _, [] => []
  | past, s :: stretch => (s.spell? past i).toList ++ spells i (past ++ [s]) stretch

theorem spells_append : spells i past (stretch ++ [s]) =
    spells i past stretch ++ (s.spell? (past ++ stretch) i).toList := by
  induction stretch generalizing past with
  | nil => simp [spells]
  | cons r stretch ih => simp [spells, ih]

/-- The stint that a step ends began when the table says. -/
theorem Step.spell?_eq {τ : Turn} (hturn : s.turn? i = some τ)
    (hsince : ∀ now, τ = .leave now →
      dispatched? past i = some (s.before.table.record i).dispatchedAt) :
    s.spell? past i = τ.spell? (s.before.table.record i).standing.since := by
  unfold Step.spell?
  rw [hturn]
  cases τ with
  | leave now =>
    rw [hsince now rfl]
    rfl
  | _ => rfl

/-- A step finds a process in its slot, and neither promotes it nor puts it on a level. -/
structure Step.Undisturbed (i : Slot) (pid : Pid) (s : Step P) : Prop where
  /-- The process is in the slot. -/
  pid_eq : (s.before.table.record i).pid = pid
  /-- A sweep finds it at the top, if at all. -/
  promoted : s.turn? i = some .sweep → P.maxPriority ≤ (s.before.table.record i).priority
  /-- It is not put on a level. -/
  assigned : ∀ priority, s.turn? i ≠ some (.assign priority)

/-- **One step keeps to the rule.** -/
theorem rationed_of_perform_eq_ok {pid : Pid} {level : Nat} {left : Int} {stints : List Nat}
    (h : m.table.Orderly) (hn : m.table.view.Numbered) (hperform : m.perform e = .ok (p, m₁))
    (hbudget : P.budget < sign64) (hnow : e.now < sign64)
    (hs : Step.Undisturbed i pid ⟨m, e, p⟩) (hi : (m.table.record i).stage ≠ .unused)
    (hsince : (m.table.record i).stage = .running →
      dispatched? past i = some (m.table.record i).dispatchedAt)
    (hfunded : (m.table.record i).standing.Funded P)
    (hrationed : Rationed P.budget level left stints (m.table.record i).priority
      (m.table.record i).budget) :
    (m₁.table.record i).standing.Funded P ∧
      Rationed P.budget level left (stints ++ (Step.spell? past i ⟨m, e, p⟩).toList)
        (m₁.table.record i).priority (m₁.table.record i).budget := by
  have hfull : 0 < P.budget := Int.lt_of_lt_of_le hfunded.1 hfunded.2
  have hstanding := standing_of_perform_eq_ok h hn hperform hi hfunded hbudget hnow
  cases hturn : (Step.mk m e p).turn? i with
  | none =>
    rw [hturn] at hstanding
    have hnone : Step.spell? past i ⟨m, e, p⟩ = none := by
      unfold Step.spell?
      rw [hturn]
    rw [hnone, Option.toList_none, List.append_nil]
    refine ⟨hstanding ▸ hfunded, ?_⟩
    change Rationed _ _ _ _ (m₁.table.record i).standing.priority
      (m₁.table.record i).standing.budget
    rw [hstanding]
    exact hrationed
  | some τ =>
    rw [hturn] at hstanding
    have hlast : ∀ now, τ = .leave now →
        dispatched? past i = some (m.table.record i).dispatchedAt := by
      rintro now rfl
      exact hsince (running_of_turn h hperform hturn)
    rw [Step.spell?_eq hturn hlast]
    refine ⟨hstanding ▸ hfunded.turn hfull τ, ?_⟩
    change Rationed _ _ _ _ (m₁.table.record i).standing.priority
      (m₁.table.record i).standing.budget
    rw [hstanding]
    refine Rationed.turn (s := (m.table.record i).standing) hrationed hfull ?_ ?_
    · rintro rfl
      exact hs.promoted hturn
    · rintro priority rfl
      exact hs.assigned priority hturn

/-- The stints of a process in a stretch of a run keep to the rule. -/
theorem History.rationed {m₀ : Machine P} (h : m.History stretch m₁)
    (hpast : m₀.History past m) (hm₀ : m₀.table.Orderly) (hn₀ : m₀.table.view.Numbered)
    (hnew : (m₀.table.record i).stage ≠ .running) (hbudget : P.budget < sign64)
    (hclock : ∀ s ∈ stretch, s.event.now < sign64) (hi : (m.table.record i).stage ≠ .unused)
    (hfunded : (m.table.record i).standing.Funded P)
    (hstretch : ∀ s ∈ stretch, s.Undisturbed i (m.table.record i).pid) :
    (m₁.table.record i).standing.Funded P ∧
      Rationed P.budget (m.table.record i).priority (m.table.record i).budget
        (spells i past stretch) (m₁.table.record i).priority (m₁.table.record i).budget := by
  induction h with
  | nil => exact ⟨hfunded, .nil hfunded.1⟩
  | @event steps m₂ m₃ e p hrun _ hperform ih =>
    obtain ⟨hbefore, hnow⟩ := List.forall_mem_append.1 hclock
    obtain ⟨hrest, hlast⟩ := List.forall_mem_append.1 hstretch
    rw [List.forall_mem_singleton] at hnow hlast
    obtain ⟨hfunded₂, hrationed⟩ := ih hbefore hrest
    have hall := hpast.trans hrun
    have hn := (hpast.numbered hm₀ hn₀).pid_eq_nobody_iff i
    have hn₂ := (hall.numbered hm₀ hn₀).pid_eq_nobody_iff i
    have hused : (m₂.table.record i).stage ≠ .unused := by
      refine fun hunused => hi (hn.1 ?_)
      exact hlast.pid_eq.symm.trans (hn₂.2 hunused)
    rw [spells_append]
    exact rationed_of_perform_eq_ok (hall.orderly hm₀) (hall.numbered hm₀ hn₀) hperform hbudget hnow
      hlast hused (hall.dispatched hm₀ hnew) hfunded₂ hrationed
  | grant hrun hgrants ih =>
    have hrecord := (hgrants.steady ((hpast.trans hrun).orderly hm₀)).record i
    simp only [Table.view_record] at hrecord
    rw [hrecord.standing, hrecord.priority, hrecord.budget]
    exact ih hclock hstretch

/-- **A process cannot keep its level by giving up the CPU early.**  Take any stretch of a run that
finds a process in its slot and neither promotes it nor puts it on a level.  The stints that the
process ends there in a yield or a sleep make of its level and budget what the rule says, however
the same ticks are cut into stints: the first refill comes with the first stint with which they
reach the budget, as stretches that end before and after this stint show.  So as long as it keeps a
level above the lowest, these stints are shorter together than the budget that it had at first. -/
theorem rationed_of_history {t : Table P} {start : Nat}
    (hcreate : Table.create P start = .ok (.ok t)) (hpast : History { table := t } past m)
    (hrun : m.History stretch m₁) (hbudget : P.budget < sign64)
    (hclock : ∀ s ∈ past ++ stretch, s.event.now < sign64) (hi : (m.table.record i).stage ≠ .unused)
    (hstretch : ∀ s ∈ stretch, s.Undisturbed i (m.table.record i).pid) :
    Rationed P.budget (m.table.record i).priority (m.table.record i).budget
      (spells i past stretch) (m₁.table.record i).priority (m₁.table.record i).budget ∧
    (0 < (m.table.record i).priority →
      (m₁.table.record i).priority = (m.table.record i).priority →
      ((spells i past stretch).sum : Nat) < (m.table.record i).budget) := by
  obtain ⟨ht, hview⟩ := Table.orderly_of_create hcreate
  obtain ⟨hbefore, hafter⟩ := List.forall_mem_append.1 hclock
  have hnew : ∀ j, (t.record j).stage = .unused := fun j => by
    rw [← Table.view_record, hview]
    rfl
  have hn : t.view.Numbered := hview ▸ numbered_fresh
  obtain ⟨-, -, -, hfull, -⟩ := P.of_check (Table.create_eq_ok hcreate).1
  have hfunded : (m.table.record i).standing.Funded P := by
    obtain ⟨_, _, later, -, -, hstanding⟩ :=
      hpast.exists_tenure ht hn hnew hfull hbudget hbefore hi
    rw [hstanding]
    exact funded_standingAfter hfull
  have hrationed := (hrun.rationed hpast ht hn (by rw [hnew]; decide) hbudget hafter hi hfunded
    hstretch).2
  exact ⟨hrationed, hrationed.sum_lt⟩

/-- The root process cuts six ticks into a yield, a sleep and a yield; with the third stint it has
run for its budget of five ticks, and is demoted. -/
theorem rationed_of_yielding : ∃ (t : Table ⟨1, 1, 5, 100, 1, true⟩) (past stretch : List (Step _))
    (m m₁ : Machine _), Table.create _ 0 = .ok (.ok t) ∧ History { table := t } past m ∧
      m.History stretch m₁ ∧ (m.table.record 0).priority = 1 ∧ (m.table.record 0).budget = 5 ∧
      spells 0 past stretch = [2, 2, 2] ∧ (m₁.table.record 0).priority = 0 ∧
      Rationed 5 1 5 [2, 2, 2] 0 5 := by
  obtain ⟨t, past, m, hcreate, hpast, hbefore, hrecord, stretch, m₁, hrun, hafter, hrest⟩ :
      ∃ (t : Table ⟨1, 1, 5, 100, 1, true⟩) (past : List (Step _)) (m : Machine _),
        Table.create _ 0 = .ok (.ok t) ∧ History { table := t } past m ∧
        past.map (·.event.now) = [0, 0, 0] ∧ ((m.table.record 0).stage = .runnable ∧
          (m.table.record 0).pid = 1 ∧ (m.table.record 0).priority = 1 ∧
          (m.table.record 0).budget = 5) ∧
        ∃ (stretch : List (Step _)) (m₁ : Machine _), m.History stretch m₁ ∧
          stretch.map (fun s => (s.event.now, (s.before.table.record 0).pid, s.turn? 0)) =
            [(1, 1, some (.dispatch 1)), (3, 1, some (.leave 3)), (3, 1, none),
              (4, 1, some (.dispatch 4)), (6, 1, some (.leave 6)), (6, 1, none), (6, 1, none),
              (7, 1, some (.dispatch 7)), (9, 1, some (.leave 9))] ∧
          spells 0 past stretch = [2, 2, 2] ∧ (m₁.table.record 0).priority = 0 ∧
          (m₁.table.record 0).budget = 5 :=
    ⟨_, _, _, rfl,
      History.nil.event (e := .start (.boot "" []) 0) trivial rfl
        |>.event (e := .answer ⟨none, .allocating 0 (.root "" [])⟩ (some ⟨0⟩) 0)
          List.mem_cons_self rfl
        |>.event (e := .answer ⟨none, .mapping 0 "" []⟩ (some ⟨0⟩) 0) List.mem_cons_self rfl,
      rfl, ⟨rfl, rfl, rfl, rfl⟩, _, _,
      History.nil.event (e := .start (.dispatch 0) 1) trivial rfl
        |>.event (e := .start (.yield 0) 3) trivial rfl
        |>.event (e := .start (.reclaim 0 ⟨0, 1⟩) 3) trivial rfl
        |>.event (e := .start (.dispatch 0) 4) trivial rfl
        |>.event (e := .start (.sleep 0 (.address 8)) 6) trivial rfl
        |>.event (e := .start (.reclaim 0 ⟨0, 1⟩) 6) trivial rfl
        |>.event (e := .start (.signal (.address 8)) 6) trivial rfl
        |>.event (e := .start (.dispatch 0) 7) trivial rfl
        |>.event (e := .start (.yield 0) 9) trivial rfl, rfl, rfl, rfl, rfl⟩
  obtain ⟨hspells, hlevel, hleft⟩ := hrest
  have hsteps : ∀ s ∈ stretch, s.event.now ≤ 9 ∧ s.Undisturbed 0 1 := by
    intro s hs
    have hmem := hafter ▸ List.mem_map_of_mem
      (f := fun s : Step _ => (s.event.now, (s.before.table.record 0).pid, s.turn? 0)) hs
    simp only [List.mem_cons, List.not_mem_nil, or_false, Prod.mk.injEq] at hmem
    rcases hmem with h | h | h | h | h | h | h | h | h <;> obtain ⟨hnow, hpid, hturn⟩ := h <;>
      exact ⟨by omega, hpid, by simp [hturn], by simp [hturn]⟩
  have hclock : ∀ s ∈ past ++ stretch, s.event.now < sign64 := by
    intro s hs
    refine Nat.lt_of_le_of_lt (m := 9) ?_ (by decide)
    rcases List.mem_append.1 hs with hs | hs
    · have hmem := hbefore ▸ List.mem_map_of_mem (f := fun s : Step _ => s.event.now) hs
      simp only [List.mem_cons, List.not_mem_nil, or_false, or_self] at hmem
      omega
    · exact (hsteps s hs).1
  obtain ⟨hstage, hpid, hpriority, hbudget⟩ := hrecord
  have hused : (m.table.record 0).stage ≠ .unused := by
    rw [hstage]
    decide
  have hstretch : ∀ s ∈ stretch, s.Undisturbed 0 (m.table.record 0).pid := by
    rw [hpid]
    exact fun s hs => (hsteps s hs).2
  have hrule := (rationed_of_history hcreate hpast hrun (by decide) hclock hused hstretch).1
  rw [hpriority, hbudget, hspells, hlevel, hleft] at hrule
  exact ⟨t, past, stretch, m, m₁, hcreate, hpast, hrun, hpriority, hbudget, hspells, hlevel, hrule⟩

end Machine

end FeedbackQueue
