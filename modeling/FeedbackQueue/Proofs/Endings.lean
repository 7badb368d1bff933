import FeedbackQueue.Proofs.Errands
import FeedbackQueue.Proofs.Reports

/-!
# Stretches that come to an end

Every fault has a reason that can be read off the table: an idle or a busy CPU, a slot in another
stage, a word that is full.  A table on which no word is full (`Table.Fits`) brings every event to
an end that finds its processes, slots and CPUs as it needs them (`Table.Admits`).

## Main definitions

* `Ends` : a computation does not fault.
* `Table.Busy` : a process runs on a CPU.
* `Table.Fits` : nothing overflows at a reading of the clock.
* `Table.Admits` : what an event needs of a table.

## Main statements

* `Machine.ends_of_admits` : the event of a machine whose table admits it does not fault.
-/

namespace FeedbackQueue

/-- A computation does not fault. -/
def Ends {α : Type} (r : Except Fault α) : Prop := ∃ a, r = .ok a

section Ends

variable {α β : Type} {g : Prop} {r : Except Fault α} {k : α → Except Fault β} {Q : α → Prop}

theorem Ends.ok {a : α} : Ends (.ok a : Except Fault α) := ⟨a, rfl⟩

theorem Ends.bind (h : Ends r) (hk : ∀ a, Ends (k a)) : Ends (r >>= k) := by
  obtain ⟨a, rfl⟩ := h
  exact hk a

theorem Yields.ends (h : Yields g r Q) (hg : g) : Ends r := by
  obtain ⟨a, rfl, -⟩ := h.exists_ok hg
  exact .ok

/-- What does not fault, before what does not fault with any of its values. -/
theorem Yields.ends_bind (h : Yields g r Q) (hg : g) (hk : ∀ a, Q a → Ends (k a)) :
    Ends (r >>= k) := by
  obtain ⟨a, rfl, ha⟩ := h.exists_ok hg
  exact hk a ha

end Ends

namespace Table

variable {P : Params} {t t' : Table P} {cpu : Cpu} {now : Nat} {i : Slot} {plan : Blueprint}

/-- A process runs on a CPU. -/
def Busy (t : Table P) (cpu : Cpu) : Prop :=
  ∃ i, t.occupant? cpu = some i ∧ (t.record i).stage = .running

/-- Nothing overflows at a reading of the clock, and whoever is named as a parent or as the root
process is a slot. -/
structure Fits (t : Table P) (now : Nat) : Prop where
  orderly : t.Orderly
  closed : t.Closed
  root_lt : ∀ r, t.root = some r → r < P.capacity
  pids : t.nextPid + 1 < word32
  levels : P.maxPriority < word32
  interval : now + P.sweepEvery < word64
  stints : ∀ i, (t.record i).stage = .running →
    (t.record i).cpuTicks + (now - (t.record i).dispatchedAt) < word64

theorem Busy.of_steady (h : t.Busy cpu) (hsteady : t.view.Steady t'.view) : t'.Busy cpu := by
  obtain ⟨i, hi, hrunning⟩ := h
  refine ⟨i, ?_, (hsteady.record i).running.2 hrunning⟩
  rw [← view_marker, hsteady.marker]
  exact hi

/-- Steady changes overflow nothing. -/
theorem Fits.of_steady (h : t.Fits now) (h' : t'.Orderly) (hsteady : t.view.Steady t'.view) :
    t'.Fits now where
  orderly := h'
  closed i j hj := h.closed i j ((hsteady.record i).parent.symm.trans hj)
  root_lt r hr := h.root_lt r (hsteady.root.symm.trans hr)
  pids := by
    rw [show t'.nextPid = t.nextPid from hsteady.nextPid]
    exact h.pids
  levels := h.levels
  interval := h.interval
  stints i hi := by
    have hrecord : (t.record i).Steady (t'.record i) := hsteady.record i
    rw [hrecord.cpuTicks, hrecord.dispatchedAt]
    exact h.stints i (hrecord.running.1 hi)

theorem Fits.of_act {a : Act} (h : t.Fits now) (h' : t'.Orderly) (he : a.Enabled t.view)
    (ha : a.deed? = none) (hview : t'.view = a.apply P t.view) :
    t'.Fits now ∧ t.view.Steady t'.view := by
  have hsteady : t.view.Steady t'.view := hview ▸ Act.steady_apply he ha
  exact ⟨h.of_steady h' hsteady, hsteady⟩

theorem Busy.exists_occupant (h : t.Busy cpu) : ∃ i, t.occupant? cpu = some i := by
  obtain ⟨i, hi, -⟩ := h
  exact ⟨i, hi⟩

/-- Who runs on a CPU can be charged for it. -/
theorem Fits.exists_stint (h : t.Fits now) (hbusy : t.Busy cpu) :
    ∃ i, t.occupant? cpu = some i ∧ (t.record i).stage = .running ∧
      (t.record i).cpuTicks + (now - (t.record i).dispatchedAt) < word64 := by
  obtain ⟨i, hi, hrunning⟩ := hbusy
  exact ⟨i, hi, hrunning, h.stints i hrunning⟩

/-! ### Birth -/

theorem Fits.ends_allocateFor (h : t.Fits now) {purpose : Purpose} :
    Ends (t.allocateFor purpose now) := by
  unfold allocateFor
  refine h.orderly.yields_conceive.ends_bind h.pids fun result _ => ?_
  rcases result with _ | ⟨i, t'⟩
  · exact .ok
  · exact .ok

theorem Fits.ends_abandonFork (h : t.Fits now) (hi : (t.record i).stage = .embryo) :
    Ends (t.abandonFork i) := by
  unfold abandonFork
  refine h.orderly.yields_abandon.ends_bind ⟨lt_of_stage_eq hi, hi⟩ ?_
  rintro ⟨stack, t'⟩ -
  cases stack with
  | some stack => exact .ok
  | none => exact .ok

theorem Fits.ends_furnish (h : t.Fits now) (hi : (t.record i).stage = .embryo)
    {purpose : Purpose} : Ends (t.furnish i purpose) := by
  cases purpose with
  | bare | root => exact .ok
  | child plan =>
    unfold furnish
    dsimp only
    cases plan.space with
    | some source => exact .ok
    | none => exact h.ends_abandonFork hi

theorem Fits.ends_finishFork (h : t.Fits now) (hi : (t.record i).stage = .embryo)
    {space : AddressSpace} {files : List FileHandle} {cwd : Option FileHandle} :
    Ends (t.finishFork i plan space files cwd) := by
  unfold finishFork
  exact h.orderly.yields_launch.ends_bind ⟨lt_of_stage_eq hi, hi⟩ fun _ _ => .ok

theorem Fits.ends_duplicateFiles (h : t.Fits now) (hi : (t.record i).stage = .embryo)
    {space : AddressSpace} {copies files : List FileHandle} :
    Ends (t.duplicateFiles i plan space copies files) := by
  cases files with
  | cons file rest => exact .ok
  | nil =>
    unfold duplicateFiles
    cases plan.cwd with
    | some dir => exact .ok
    | none => exact h.ends_finishFork hi

/-! ### Death -/

theorem Fits.ends_closeFiles (h : t.Fits now) (hbusy : t.Busy cpu) {last : Resumption}
    {files : List FileHandle} : Ends (t.closeFiles cpu last now files) := by
  cases files with
  | cons file rest => exact .ok
  | nil =>
    unfold closeFiles
    obtain ⟨i, hi, hrunning, hstint⟩ := h.exists_stint hbusy
    exact h.orderly.yields_retire.ends_bind
      ⟨i, hi, hrunning, h.closed i, h.root_lt, hstint⟩ fun _ _ => .ok

/-- An exit takes the files first, which is no deed. -/
theorem Fits.ends_exit (h : t.Fits now) (hbusy : t.Busy cpu) (hroot : t.occupant? cpu ≠ t.root)
    {last : Resumption} : Ends (t.exit cpu last now) := by
  unfold exit
  obtain ⟨i, hi⟩ := hbusy.exists_occupant
  have hne : t.root ≠ some i := fun hr => hroot (hi.trans hr.symm)
  refine h.orderly.yields_surrenderFiles.ends_bind ⟨i, hi, hne⟩ ?_
  rintro ⟨files, t'⟩ ⟨h', j, hj, hroot', -, hview⟩
  obtain ⟨hfits, hsteady⟩ := h.of_act (a := .surrender cpu j) h' ⟨hj, hroot'⟩ rfl hview
  exact hfits.ends_closeFiles (hbusy.of_steady hsteady)

theorem ends_releaseSpace {reaper : Reaper} {pid : Pid} {space : Option AddressSpace} :
    Ends (t.releaseSpace reaper pid space) := by
  cases space <;> exact .ok

theorem ends_release {reaper : Reaper} {remains : Remains} : Ends (t.release reaper remains) := by
  unfold release
  cases remains.stack with
  | some stack => exact .ok
  | none => exact ends_releaseSpace

theorem Fits.ends_waitRound (h : t.Fits now) (hbusy : t.Busy cpu) : Ends (t.waitRound cpu now) := by
  unfold waitRound
  refine h.orderly.yields_scan.ends_bind hbusy.exists_occupant ?_
  rintro result ⟨me, hme, hfinds⟩
  cases result with
  | noChildren => exact .ok
  | reaped remains t' =>
    have h' : t'.Orderly := hfinds.1
    exact h'.yields_settle.ends_bind trivial fun _ _ => ends_release
  | pending =>
    refine yields_current.ends_bind ⟨me, hme, h.orderly.sound.valid.marker_lt cpu me hme⟩ ?_
    exact fun _ _ => h.orderly.yields_park.ends_bind (h.exists_stint hbusy) fun _ _ => .ok

theorem Orderly.ends_poll (h : t.Orderly) (hcpu : ∃ i, t.occupant? cpu = some i) :
    Ends (t.poll cpu) := by
  unfold poll
  refine h.yields_scan.ends_bind hcpu ?_
  rintro result ⟨me, -, hfinds⟩
  cases result with
  | noChildren | pending => exact .ok
  | reaped remains t' =>
    have h' : t'.Orderly := hfinds.1
    exact h'.yields_settle.ends_bind trivial fun _ _ => ends_release

/-! ### Sleeping -/

theorem Fits.ends_sleepRound (h : t.Fits now) (hbusy : t.Busy cpu) {start ticks seen : Nat} :
    Ends (t.sleepRound cpu start ticks seen now) := by
  unfold sleepRound
  split
  · exact .ok
  obtain ⟨i, hi⟩ := hbusy.exists_occupant
  refine yields_current.ends_bind ⟨i, hi, h.orderly.sound.valid.marker_lt cpu i hi⟩ fun p _ => ?_
  split
  · exact .ok
  · exact h.orderly.yields_park.ends_bind (h.exists_stint hbusy) fun _ _ => .ok

/-! ### Dispatching -/

theorem Fits.ends_dispatchRound (h : t.Fits now) (hcpu : cpu < P.cpus ∧ t.occupant? cpu = none)
    {forever : Bool} : Ends (t.dispatchRound cpu forever now) := by
  unfold dispatchRound
  refine h.orderly.yields_dispatch.ends_bind hcpu fun result _ => ?_
  rcases result with _ | ⟨handoff, t'⟩
  · refine h.orderly.yields_rest.ends_bind ⟨h.levels, h.interval⟩ fun _ _ => ?_
    cases forever <;> exact .ok
  · exact .ok

theorem Fits.ends_reclaim (h : t.Fits now) {handoff : Handoff}
    (hcpu : t.occupant? cpu = some handoff.slot)
    (hleft : (t.record handoff.slot).stage ≠ .running) :
    Ends (t.reclaim cpu handoff now) :=
  (h.orderly.yields_reclaim fun _ hmisused => hleft hmisused.2).ends
    ⟨hcpu, h.closed handoff.slot, h.levels, h.interval⟩

theorem ends_finishOr {result : Except Refusal (Table P)} : Ends (t.finishOr result) := by
  cases result <;> exact .ok

/-! ### Events -/

/-- What single events need besides: a process is woken from its sleep, a sweep is not due in the
future, the image of the root process is mapped, nobody runs after its exit, and to switch away is
left to the operations that make a process leave its CPU. -/
def Allows (t : Table P) : Event → Prop
  | .start (.rouse i) _ => (t.record i).stage = .sleeping
  | .start (.sweepIfDue due) clock => due ≤ clock.now
  | .start (.switch _ _) _ => False
  | .answer ⟨_, .mapping _ _ _⟩ none _ => False
  | .answer ⟨_, .switching _ .terminate⟩ _ _ => False
  | _ => True

/-- What an event needs of a table. -/
structure Admits (t : Table P) (e : Event) : Prop where
  works : ∀ cpu, e.cpu? = some cpu → t.Busy cpu
  exits : ∀ cpu, e.exits? = some cpu → t.occupant? cpu ≠ t.root
  closes : ∀ cpu, e.closes? = some cpu → t.Busy cpu
  picks : ∀ cpu, e.picksFor? = some cpu → cpu < P.cpus ∧ t.occupant? cpu = none
  reclaims : ∀ cpu handoff, e.givesBack = some (cpu, handoff) →
    t.occupant? cpu = some handoff.slot ∧ (t.record handoff.slot).stage ≠ .running
  embryo : ∀ i, e.slot? = some i → (t.record i).stage = .embryo
  boots : e.boots = true → t.root = none
  allows : t.Allows e

/-- A request of which a table that has room for it admits the event. -/
theorem Fits.ends_start {clock : Clock} (h : t.Fits clock.now) {request : Request}
    (ha : t.Admits (.start request clock)) : Ends (request.start clock t) := by
  cases request with
  | allocate => exact h.ends_allocateFor
  | boot name image =>
    unfold Request.start
    rw [ha.boots rfl]
    exact h.ends_allocateFor
  | fork cpu =>
    have hcpu := (ha.works cpu rfl).exists_occupant
    exact (yields_blueprint h.orderly.sound).ends_bind hcpu fun plan _ => h.ends_allocateFor
  | exit cpu | terminate cpu => exact h.ends_exit (ha.works cpu rfl) (ha.exits cpu rfl)
  | wait cpu => exact h.ends_waitRound (ha.works cpu rfl)
  | poll cpu => exact h.orderly.ends_poll (ha.works cpu rfl).exists_occupant
  | sleep cpu channel =>
    exact h.orderly.yields_park.ends_bind (h.exists_stint (ha.works cpu rfl)) fun _ _ => .ok
  | sleepFor cpu ticks => exact h.ends_sleepRound (ha.works cpu rfl)
  | yield cpu =>
    exact h.orderly.yields_yield.ends_bind (h.exists_stint (ha.works cpu rfl)) fun _ _ => .ok
  | switch cpu left => exact ha.allows.elim
  | pass cpu | serve cpu => exact .ok
  | dispatch cpu =>
    refine h.orderly.yields_dispatch.ends_bind (ha.picks cpu rfl) fun result _ => ?_
    rcases result with _ | ⟨handoff, t'⟩
    · exact .ok
    · exact .ok
  | reclaim cpu handoff =>
    obtain ⟨hcpu, hleft⟩ := ha.reclaims cpu handoff rfl
    exact (h.ends_reclaim hcpu hleft).bind fun _ => .ok
  | signal channel =>
    obtain ⟨t', e, -⟩ := h.orderly.signal_eq_ok channel
    exact Ends.bind ⟨_, e⟩ fun _ => .ok
  | tick =>
    obtain ⟨t', e, -⟩ := h.orderly.tick_eq_ok
    exact Ends.bind ⟨_, e⟩ fun _ => .ok
  | rouse i =>
    have hi : (t.record i).stage = .sleeping := ha.allows
    exact h.orderly.yields_rouse.ends_bind ⟨lt_of_stage_eq hi, hi⟩ fun _ _ => .ok
  | kill pid => exact h.orderly.yields_kill.ends_bind trivial fun _ _ => ends_finishOr
  | setPriority pid priority =>
    exact h.orderly.yields_setPriority.ends_bind trivial fun _ _ => ends_finishOr
  | setUid cpu uid =>
    exact h.orderly.yields_setUid.ends_bind (.inr (ha.works cpu rfl).exists_occupant)
      fun _ _ => ends_finishOr
  | setGid cpu gid =>
    exact h.orderly.yields_setGid.ends_bind (.inr (ha.works cpu rfl).exists_occupant)
      fun _ _ => ends_finishOr
  | sweep => exact h.orderly.sound.yields_sweep.ends_bind h.levels fun _ _ => .ok
  | sweepIfDue due =>
    have hdue : due ≤ clock.now := ha.allows
    have hinterval : due + P.sweepEvery < word64 :=
      Nat.lt_of_le_of_lt (Nat.add_le_add_right hdue _) h.interval
    exact h.orderly.sound.yields_sweepIfDue.ends_bind ⟨h.levels, hinterval⟩ fun _ _ => .ok

/-- An answer of which a table that has room for it admits the event. -/
theorem Fits.ends_resume {clock : Clock} (h : t.Fits clock.now) {task : Task}
    {reply : task.suspension.call.Answer}
    (ha : t.Admits (.answer task reply clock)) : Ends (task.suspension.resume clock t reply) := by
  obtain ⟨caller, s⟩ := task
  cases s with
  | allocating i purpose =>
    have hi := ha.embryo i rfl
    cases reply with
    | some stack =>
      unfold Suspension.resume
      refine h.orderly.yields_giveStack.ends_bind (lt_of_stage_eq hi) ?_
      rintro t' ⟨h', hview⟩
      obtain ⟨hfits, hsteady⟩ := h.of_act (a := .giveStack i stack) h' trivial rfl hview
      refine hfits.ends_furnish ?_
      exact Stage.phase_eq_unborn.1 ((hsteady.record i).phase.trans (Stage.phase_eq_unborn.2 hi))
    | none =>
      exact h.orderly.yields_discard.ends_bind ⟨lt_of_stage_eq hi, hi⟩ fun _ _ => .ok
  | mapping i name image =>
    cases reply with
    | some space =>
      have hi := ha.embryo i rfl
      exact h.orderly.yields_crown.ends_bind ⟨ha.boots rfl, lt_of_stage_eq hi, hi⟩ fun _ _ => .ok
    | none => exact ha.allows.elim
  | copying i plan source =>
    cases reply with
    | some space => exact h.ends_duplicateFiles (ha.embryo i rfl)
    | none => exact h.ends_abandonFork (ha.embryo i rfl)
  | duplicating i => exact h.ends_duplicateFiles (ha.embryo i rfl)
  | duplicatingCwd i => exact h.ends_finishFork (ha.embryo i rfl)
  | undoing | freeingSpace | idling => exact .ok
  | closing cpu => exact h.ends_closeFiles (ha.closes cpu rfl)
  | switching cpu resumption =>
    cases resumption with
    | exit | proceed => exact .ok
    | terminate => exact ha.allows.elim
    | wait => exact h.ends_waitRound (ha.works reply rfl)
    | sleepFor => exact h.ends_sleepRound (ha.works reply rfl)
  | freeingStack => exact ends_releaseSpace
  | enabling cpu forever => exact h.ends_dispatchRound (ha.picks cpu rfl)
  | running cpu handoff forever =>
    obtain ⟨hcpu, hleft⟩ := ha.reclaims cpu reply rfl
    refine (h.ends_reclaim hcpu hleft).bind fun _ => ?_
    cases forever <;> exact .ok

end Table

/-- **The event of a machine whose table has room for it and admits it does not fault.** -/
theorem Machine.ends_of_admits {P : Params} {m : Machine P} {e : Event} (h : m.table.Fits e.now)
    (ha : m.table.Admits e) : Ends (m.perform e) := by
  have hstretch : Ends (m.stretch e) := by
    cases e with
    | start => exact h.ends_start ha
    | answer => exact h.ends_resume ha
  exact hstretch.bind fun _ => .ok

end FeedbackQueue
