import FeedbackQueue.Proofs.Kills
import FeedbackQueue.Proofs.Strands

/-!
# Timed sleeps

A timed sleep goes round by round: whenever its process runs again, for whatever reason it has been
woken, it looks at the clock, then for a kill, and then it sleeps until the next tick.  A tick wakes
everybody who sleeps on the clock.

The clock may run on between the look and the sleep, even beyond the deadline.  The tick that comes
with such an advance finds the process asleep, since the table is held from the look to the sleep.

## Main definitions

* `Table.Naps` : a round of a timed sleep.
* `Machine.Drowsy` : whoever sleeps in a timed sleep sleeps on the clock.

## Main statements

* `Machine.naps_of_strand` : the rounds of a timed sleep.
* `Machine.Drowsy.of_perform_eq_ok` : disciplined events keep the machine drowsy.
* `Machine.slept_of_history` : timed sleeps are neither short nor lost.
-/

namespace FeedbackQueue

/-- Whether the process of a request has switched away in a timed sleep. -/
def Suspension.isNap : Suspension → Bool
  | .switching _ (.sleepFor _ _) => true
  | _ => false

theorem Suspension.isInterruptible_of_isNap {s : Suspension} (h : s.isNap = true) :
    s.isInterruptible = true := by
  cases s with
  | switching _ resumption => cases resumption <;> first | rfl | cases h
  | _ => cases h

/-- Whoever switches away in a timed sleep, and has not exited, does so in a round of it. -/
theorem Event.naps_of_script {e : Event} {acts : List Act} {s : Suspension} {cpu : Cpu}
    (h : e.script acts (.waiting s)) (hs : s.isNap = true) (hcpu : e.cpu? = some cpu) :
    ∃ first ticks, e.naps? = some (cpu, first, ticks) := by
  have hwait : ∀ {cpu now}, ¬ Script.waitRound cpu now acts (.waiting s) := by
    rintro cpu now (⟨-, h⟩ | ⟨_, _, _, _, -, h⟩ | ⟨_, -, h⟩)
    · cases h
    · rcases Script.cases_release h with ⟨_, _, -, h⟩ | ⟨_, -, h⟩ | ⟨-, h⟩ <;> cases h <;> cases hs
    · cases h
      cases hs
  cases Event.rounds_of_script h (Suspension.isInterruptible_of_isNap hs) with
  | scan _ hscan =>
    unfold scans? at hscan
    split at hscan <;> cases hscan <;> exact (hwait h).elim
  | nap _ first ticks hnap =>
    cases hcpu.symm.trans (Event.cpu_of_naps hnap)
    exact ⟨first, ticks, hnap⟩
  | close _ hcloses =>
    cases e with
    | start => cases hcloses
    | answer task =>
      obtain ⟨_, s⟩ := task
      cases s <;> first | cases hcpu | cases hcloses

/-! ### Rounds -/

namespace Table

variable {P : Params} {t t' : Table P} {cpu : Cpu} {i : Slot} {begun ticks seen now : Nat}
  {p : Progress}

/-- A round of a timed sleep of the process in a slot.  The sleep has begun at a reading of the
clock, and `seen` is the reading by which the round goes. -/
inductive Naps (t : Table P) (cpu : Cpu) (i : Slot) (begun ticks seen : Nat) :
    (p : Progress) → (t' : Table P) → Prop
  /-- The time is up. -/
  | expired (htime : ticks ≤ seen - begun) :
      Naps t cpu i begun ticks seen (.returned (.slept (.ok ()) cpu)) t
  /-- The time is not up, but the process has been killed. -/
  | killed (htime : seen - begun < ticks) (hkilled : (t.record i).killed = true) :
      Naps t cpu i begun ticks seen (.returned (.slept (.error .killed) cpu)) t
  /-- The time is not up, and the process sleeps on the clock. -/
  | sleeps {t' : Table P} (htime : seen - begun < ticks) (hkilled : (t.record i).killed = false)
      (hasleep : (t'.record i).sleepsOn .ticks = true) :
      Naps t cpu i begun ticks seen (.waiting (.switching cpu (.sleepFor begun ticks))) t'

theorem Orderly.naps_sleepRound (h : t.Orderly) (hi : t.occupant? cpu = some i)
    (hround : t.sleepRound cpu begun ticks seen now = .ok (p, t')) :
    t.Naps cpu i begun ticks seen p t' := by
  unfold sleepRound at hround
  split at hround
  · cases hround
    exact .expired ‹_›
  · have htime : seen - begun < ticks := Nat.lt_of_not_le ‹_›
    obtain ⟨q, hcurrent, hrest⟩ := bind_eq_ok.1 hround
    obtain ⟨j, hj, rfl⟩ := yields_current.of_ok hcurrent
    cases hi.symm.trans hj
    split at hrest
    · cases hrest
      exact .killed htime ‹_›
    · obtain ⟨t₁, hpark, hend⟩ := bind_eq_ok.1 hrest
      cases hend
      exact .sleeps htime (Bool.eq_false_of_not_eq_true ‹_›) (h.sleepsOn_of_park hi hpark)

end Table

namespace Machine

variable {P : Params} {m m₁ : Machine P} {e : Event} {p : Progress} {steps past : List (Step P)}
  {s last : Step P} {caller : Option Pid} {cpu : Cpu} {i : Slot} {begun ticks : Nat} {first : Clock}

theorem naps_of_perform_eq_ok (h : m.table.Orderly) (hi : m.table.occupant? cpu = some i)
    (hnap : e.naps? = some (cpu, begun, ticks)) (hperform : m.perform e = .ok (p, m₁)) :
    m.table.Naps cpu i begun ticks e.clock.seen p m₁.table := by
  obtain ⟨⟨p', t⟩, hstretch, hafter⟩ := bind_eq_ok.1 hperform
  rw [stretch_of_naps hnap] at hstretch
  cases hafter
  exact h.naps_sleepRound hi hstretch

/-- A round of a timed sleep: the process is at work on a CPU, looks at the clock and goes on. -/
def Step.Naps (s : Step P) (caller : Option Pid) (begun ticks : Nat) : Prop :=
  ∃ cpu i m₁, s.before.table.view.Works cpu i caller ∧
    s.before.perform s.event = .ok (s.result, m₁) ∧
    s.before.table.Naps cpu i begun ticks s.event.clock.seen s.result m₁.table

theorem Step.Lawful.naps (h : s.Lawful) (hnap : s.event.naps? = some (cpu, begun, ticks)) :
    s.Naps (s.before.caller s.event) begun ticks := by
  obtain ⟨i, hw⟩ := h.disciplined.works cpu (Event.cpu_of_naps hnap)
  obtain ⟨m₁, hperform⟩ := h.performs
  exact ⟨cpu, i, m₁, hw, hperform,
    naps_of_perform_eq_ok h.kept.regular.orderly hw.marker hnap hperform⟩

/-- A round that is not the last one. -/
theorem Step.Naps.of_waiting {suspension : Suspension} (h : s.Naps caller begun ticks)
    (hresult : s.result = .waiting suspension) :
    s.event.clock.seen - begun < ticks ∧
      ∃ cpu, suspension = .switching cpu (.sleepFor begun ticks) := by
  obtain ⟨cpu, i, m₁, -, -, hnaps⟩ := h
  generalize m₁.table = t at hnaps
  rw [hresult] at hnaps
  cases hnaps with
  | sleeps htime => exact ⟨htime, cpu, rfl⟩

/-- A round that succeeds, on a clock that does not go back. -/
theorem Step.Naps.add_le (h : s.Naps caller begun ticks) {cpu : Cpu}
    (hresult : s.result = .returned (.slept (.ok ()) cpu)) (hle : begun ≤ s.event.clock.seen) :
    begun + ticks ≤ s.event.clock.seen := by
  obtain ⟨_, _, m₁, -, -, hnaps⟩ := h
  generalize m₁.table = t, s.before.table = t' at hnaps
  rw [hresult] at hnaps
  cases hnaps with
  | expired htime => omega

/-- **The rounds of a timed sleep**, one after the other. -/
theorem naps_of_strand (h : Strand (.sleepFor cpu ticks) first past last)
    (hlawful : ∀ s ∈ past ++ [last], s.Lawful) :
    ∀ s ∈ past ++ [last], s.Naps (last.before.caller last.event) first.begun ticks := by
  induction h with
  | start => exact List.forall_mem_singleton.2 ((hlawful _ List.mem_cons_self).naps rfl)
  | @answer past last m task reply clock p hstrand htask ih =>
    obtain ⟨hpast, hnew⟩ := List.forall_mem_append.1 hlawful
    obtain ⟨hcaller, hresult⟩ := Step.task?_eq_some htask
    obtain ⟨caller, suspension⟩ := task
    obtain rfl : caller = last.before.caller last.event := hcaller
    have hnaps := ih hpast
    obtain ⟨-, cpu', rfl⟩ :=
      (hnaps last (List.mem_append_right _ List.mem_cons_self)).of_waiting hresult
    exact List.forall_mem_append.2
      ⟨hnaps, List.forall_mem_singleton.2 ((hnew _ List.mem_cons_self).naps rfl)⟩

/-! ### Nobody sleeps through a tick -/

/-- Whoever sleeps in a timed sleep sleeps on the clock. -/
def Drowsy (m : Machine P) : Prop :=
  ∀ task ∈ m.tasks, task.suspension.isNap = true → ∀ i,
    task.caller = some (m.table.record i).pid → (m.table.record i).stage = .sleeping →
      (m.table.record i).channel = some .ticks

/-- Disciplined events keep those who sleep in a timed sleep on the clock. -/
theorem Drowsy.of_perform_eq_ok (h : m.Drowsy) (ha : m.Alert) (hm : m.Regular)
    (hn : m.table.view.Numbered) (hd : m.Disciplined e) (hone : m.OneAtATime e)
    (hcan : m.CanHappen e) (hperform : m.perform e = .ok (p, m₁)) : m₁.Drowsy := by
  intro task htask hnap i hcaller hi
  obtain ⟨-, hblocks⟩ := ha.blocks_of_perform hm hn hd hone hcan hperform hi htask hcaller
    (Suspension.isInterruptible_of_isNap hnap)
  rcases hblocks with ⟨hbefore, hchannel, htask, hcaller⟩ | ⟨rfl, cpu, hcpu, hoccupant⟩
  · rw [hchannel]
    exact h task htask hnap i hcaller hbefore
  · obtain ⟨-, -, acts, -, hscript⟩ := Machine.of_perform_eq_ok hm.orderly hperform
    obtain ⟨first, ticks, hnaps⟩ := Event.naps_of_script hscript hnap hcpu
    have hround := naps_of_perform_eq_ok hm.orderly hoccupant hnaps hperform
    generalize task.suspension = s at hround
    cases hround with
    | sleeps _ _ hasleep => exact (Process.sleepsOn_iff.1 hasleep).2

theorem Drowsy.of_grants {files : Multiset FileHandle} {t : Table P} (h : m.Drowsy)
    (hm : m.table.Orderly) (hgrants : m.Grants i files t) : Drowsy { m with table := t } := by
  intro task htask hnap j
  obtain ⟨files', cwd, hj⟩ := hgrants.exists_equip hm j
  rw [hj]
  exact h task htask hnap j

theorem History.drowsy (h : m.History steps m₁) (hk : m.Kept) (hn : m.table.view.Numbered)
    (ha : m.Alert) (hm : m.Drowsy) (hdisciplined : ∀ s ∈ steps, s.before.Disciplined s.event)
    (hone : ∀ s ∈ steps, s.before.OneAtATime s.event) : m₁.Drowsy := by
  induction h with
  | nil => exact hm
  | event hrun hcan hperform ih =>
    obtain ⟨hpast, hlast⟩ := List.forall_mem_append.1 hdisciplined
    obtain ⟨hpast', hlast'⟩ := List.forall_mem_append.1 hone
    exact (ih hpast hpast').of_perform_eq_ok (hrun.alert hk hn ha hpast hpast')
      (hrun.kept hk hpast).regular (hrun.numbered hk.regular.orderly hn)
      (hlast _ List.mem_cons_self) (hlast' _ List.mem_cons_self) hcan hperform
  | grant hrun hgrants ih =>
    exact (ih hdisciplined hone).of_grants (hrun.orderly hk.regular.orderly) hgrants

/-- A tick wakes everybody who sleeps on the clock. -/
theorem awake_of_tick (h : m.table.Orderly) (clock : Clock) :
    ∃ m₁, m.perform (.start .tick clock) = .ok (.returned .done, m₁) ∧
      ∀ i, (m₁.table.record i).sleepsOn .ticks = false := by
  obtain ⟨t, e, -, hview⟩ := h.tick_eq_ok
  refine ⟨m.after (.start .tick clock) (.returned .done) t, ?_, fun i => ?_⟩
  · refine bind_eq_ok.2 ⟨(.returned .done, t), ?_, rfl⟩
    exact bind_eq_ok.2 ⟨t, e, rfl⟩
  · change (t.record i).sleepsOn .ticks = false
    rw [← Table.view_record, hview]
    change (if _ then _ else _ : Process).sleepsOn .ticks = false
    split
    · exact Process.sleepsOn_awaken
    · exact Bool.eq_false_of_not_eq_true ‹_›

/-- **Timed sleeps are neither short nor lost.**  In a disciplined run a timed sleep goes to sleep
on the clock as long as it does not see its time to be up, whatever has woken it.  It succeeds only
when it sees that its ticks have passed since it was asked for, on a clock that does not go back
from the one reading to the other, and it fails only when its process has been killed and it sees
that fewer have passed.  A tick leaves nobody asleep on the clock; and if every process does one
thing at a time, it leaves nobody asleep in a timed sleep, even if the clock has passed the deadline
since it was looked at. -/
theorem slept_of_history {t : Table P} {start : Nat} (hcreate : Table.create P start = .ok (.ok t))
    (hrun : History { table := t } steps m)
    (hdisciplined : ∀ s ∈ steps, s.before.Disciplined s.event) :
    (∀ cpu ticks first past last, Strand (.sleepFor cpu ticks) first past last →
      (past ++ [last]).Sublist steps →
        (∀ s ∈ past ++ [last], s.Naps (last.before.caller last.event) first.begun ticks) ∧
        ∀ cpu', last.result = .returned (.slept (.ok ()) cpu') →
          first.begun ≤ last.event.clock.seen → first.begun + ticks ≤ last.event.clock.seen) ∧
    ∀ clock, ∃ m₁, m.perform (.start .tick clock) = .ok (.returned .done, m₁) ∧
      (∀ i, (m₁.table.record i).sleepsOn .ticks = false) ∧
      ((∀ s ∈ steps, s.before.OneAtATime s.event) →
        ∀ task ∈ m₁.tasks, task.suspension.isNap = true → ∀ i,
          task.caller = some (m₁.table.record i).pid → (m₁.table.record i).stage ≠ .sleeping) := by
  have hk := kept_of_create hcreate
  refine ⟨fun cpu ticks first past last hstrand hsub => ?_, fun clock => ?_⟩
  · have hlawful := hrun.lawful hk hdisciplined
    have hnaps := naps_of_strand hstrand fun s hs => hlawful s (hsub.subset hs)
    exact ⟨hnaps, fun cpu' => (hnaps last (by simp)).add_le⟩
  · obtain ⟨m₁, hperform, hawake⟩ := awake_of_tick (hrun.orderly hk.regular.orderly) clock
    refine ⟨m₁, hperform, hawake, fun hone task htask hnap i hcaller hi => ?_⟩
    obtain ⟨-, hview⟩ := Table.orderly_of_create hcreate
    have hn : t.view.Numbered := hview ▸ numbered_fresh
    -- the tick is one more step of the run
    have hrun₁ := hrun.event (e := .start .tick clock) trivial hperform
    have hd : m.Disciplined (.start .tick clock) := (considerate_of_none rfl rfl).disciplined
    have hdrowsy := hrun₁.drowsy hk hn (alert_of_tasks rfl) (fun _ htask => nomatch htask)
      (List.forall_mem_append.2 ⟨hdisciplined, List.forall_mem_singleton.2 hd⟩)
      (List.forall_mem_append.2
        ⟨hone, List.forall_mem_singleton.2 (oneAtATime_of_caller (m := m) rfl)⟩)
    have hticks := Process.sleepsOn_iff.2 ⟨hi, hdrowsy task htask hnap i hcaller hi⟩
    cases hticks.symm.trans (hawake i)

/-- The root process sleeps for five ticks.  A tick wakes it after two of them.  It sees that four
have passed, and goes to sleep once more when the clock reads seven; the tick that comes with that
reading wakes it, and then its time is up. -/
theorem slept_of_waking : ∃ (t : Table ⟨1, 0, 1, 1, 1, true⟩) (steps past : List (Step _))
    (last : Step _) (m : Machine _), Table.create _ 0 = .ok (.ok t) ∧
      History { table := t } steps m ∧ Strand (.sleepFor 0 5) 0 past last ∧
      (past ++ [last]).Sublist steps ∧
      (past ++ [last]).map (·.event.clock) = [0, { now := 7, seen := 4 }, 8] ∧
      last.result = .returned (.slept (.ok ()) 0) ∧ 0 + 5 ≤ last.event.clock.seen ∧
      (∀ s ∈ past ++ [last], s.Naps (some 1) 0 5) ∧
      ∃ m₁, m.perform (.start .tick 8) = .ok (.returned .done, m₁) ∧
        ∀ task ∈ m₁.tasks, task.suspension.isNap = true → ∀ i,
          task.caller = some (m₁.table.record i).pid → (m₁.table.record i).stage ≠ .sleeping := by
  obtain ⟨t, hcreate, hleads⟩ : ∃ t : Table ⟨1, 0, 1, 1, 1, true⟩,
      Table.create _ 0 = .ok (.ok t) ∧ Leads (fun m e => m.Disciplined e ∧ m.OneAtATime e) (fun m =>
        (m.Disciplined (.start (.sleepFor 0 5) 0) ∧ m.OneAtATime (.start (.sleepFor 0 5) 0)) ∧
        m.caller (.start (.sleepFor 0 5) 0) = some 1 ∧
        ∃ m', m.perform (.start (.sleepFor 0 5) 0) =
            .ok (.waiting (.switching 0 (.sleepFor 0 5)), m') ∧
          Leads (fun m e => m.Disciplined e ∧ m.OneAtATime e) (fun m =>
            m.CanHappen (.answer ⟨some 1, .switching 0 (.sleepFor 0 5)⟩ 0 { now := 7, seen := 4 }) ∧
            m.Disciplined
              (.answer ⟨some 1, .switching 0 (.sleepFor 0 5)⟩ 0 { now := 7, seen := 4 }) ∧
            ∃ m', m.perform
                (.answer ⟨some 1, .switching 0 (.sleepFor 0 5)⟩ 0 { now := 7, seen := 4 }) =
                .ok (.waiting (.switching 0 (.sleepFor 0 5)), m') ∧
              Leads (fun m e => m.Disciplined e ∧ m.OneAtATime e) (fun m =>
                m.CanHappen (.answer ⟨some 1, .switching 0 (.sleepFor 0 5)⟩ 0 8) ∧
                m.Disciplined (.answer ⟨some 1, .switching 0 (.sleepFor 0 5)⟩ 0 8) ∧
                ∃ m', m.perform (.answer ⟨some 1, .switching 0 (.sleepFor 0 5)⟩ 0 8) =
                  .ok (.returned (.slept (.ok ()) 0), m'))
              [.start (.reclaim 0 ⟨0, 1⟩) 7, .start .tick 7, .start (.dispatch 0) 7] m')
          [.start (.reclaim 0 ⟨0, 1⟩) 0, .start .tick 2, .start (.dispatch 0) 2] m')
      [.start (.boot "" []) 0, .answer ⟨none, .allocating 0 (.root "" [])⟩ (some ⟨0⟩) 0,
        .answer ⟨none, .mapping 0 "" []⟩ (some ⟨0⟩) 0, .start (.dispatch 0) 0]
      { table := t } := by
    have hnone {m : Machine ⟨1, 0, 1, 1, 1, true⟩} {e : Event} (hcpu : e.cpu? = none)
        (hback : e.givesBack = none) (hcaller : m.caller e = none) :
        m.Disciplined e ∧ m.OneAtATime e :=
      ⟨(considerate_of_none hcpu hback).disciplined, oneAtATime_of_caller hcaller⟩
    refine ⟨_, rfl, trivial, hnone rfl rfl rfl, _, _, rfl, ?_⟩
    refine ⟨List.mem_cons_self, hnone rfl rfl rfl, _, _, rfl, ?_⟩
    refine ⟨List.mem_cons_self, hnone rfl rfl rfl, _, _, rfl, ?_⟩
    refine ⟨trivial, hnone rfl rfl rfl, _, _, rfl, ?_⟩
    refine ⟨⟨disciplined_of_works (i := 0) rfl rfl ⟨rfl, rfl, rfl⟩ nofun, fun _ _ _ => nofun⟩,
      rfl, _, rfl, ?_⟩
    refine ⟨trivial, ⟨disciplined_of_reclaim rfl rfl List.mem_cons_self (by decide),
      oneAtATime_of_caller rfl⟩, _, _, rfl, ?_⟩
    refine ⟨trivial, hnone rfl rfl rfl, _, _, rfl, ?_⟩
    refine ⟨trivial, hnone rfl rfl rfl, _, _, rfl, ?_⟩
    refine ⟨List.mem_cons_self, disciplined_of_works (i := 0) rfl rfl ⟨rfl, rfl, rfl⟩ (by decide),
      _, rfl, ?_⟩
    refine ⟨trivial, ⟨disciplined_of_reclaim rfl rfl List.mem_cons_self (by decide),
      oneAtATime_of_caller rfl⟩, _, _, rfl, ?_⟩
    refine ⟨trivial, hnone rfl rfl rfl, _, _, rfl, ?_⟩
    refine ⟨trivial, hnone rfl rfl rfl, _, _, rfl, ?_⟩
    exact ⟨List.mem_cons_self, disciplined_of_works (i := 0) rfl rfl ⟨rfl, rfl, rfl⟩ (by decide),
      _, rfl⟩
  obtain ⟨past, m, hfirst, -, hallowed, hstarts, hcaller, m₁, hstart, hleads'⟩ :=
    hleads.exists_history
  obtain ⟨between, m₂, hbetween, -, hallowed', hcan, hd, m₃, hsleep, hleads''⟩ :=
    hleads'.exists_history
  obtain ⟨later, m₄, hlater, -, hallowed'', hcan', hd', m₅, hend⟩ := hleads''.exists_history
  have hbegin : Traced (fun m e => m.Disciplined e ∧ m.OneAtATime e) _ _ _ _ _ _ _ :=
    .start hfirst hallowed hstarts hstart
  have hagain := (hbegin.trans hbetween hallowed').answer (task?_of_waiting hcaller) hcan
    ⟨hd, fun _ _ => nofun⟩ hsleep
  have htraced := (hagain.trans hlater hallowed'').answer rfl hcan' ⟨hd', fun _ _ => nofun⟩ hend
  obtain ⟨hslept, htick⟩ := slept_of_history hcreate htraced.history
    fun s hs => (htraced.allowed s hs).1
  obtain ⟨hnaps, htime⟩ := hslept _ _ _ _ _ htraced.strand htraced.sublist
  obtain ⟨m₆, hperform, -, hawake⟩ := htick 8
  exact ⟨t, _, _, _, m₅, hcreate, htraced.history, htraced.strand, htraced.sublist, rfl, rfl,
    htime 0 rfl (Nat.zero_le _), hnaps, m₆, hperform, hawake fun s hs => (htraced.allowed s hs).2⟩

end Machine

end FeedbackQueue
