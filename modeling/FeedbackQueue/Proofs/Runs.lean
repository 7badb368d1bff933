import FeedbackQueue.Proofs.Scripts
import Mathlib.Data.Multiset.AddSub

/-!
# Runs

A `Machine` is a table with the requests that wait for an answer and the handoffs that are out.  An
`Event` makes a new request or answers one that waits; nothing else is assumed of the order in which
events happen, of the answers, or of the readings of the clock.  A run is a sequence of events that
do not fault, and between two of them the surrounding machine may open files for a process.  Its
*history* is the list of its events, the last one at the end, so that a property of a run can speak
of what has happened so far.

## Main definitions

* `Machine`, `Event`, `Machine.perform` : one step of everything.
* `Machine.Grants` : the surrounding machine opens files for a process on its own.
* `Machine.Step`, `Machine.History` : the steps of a run.
* `Machine.Reaches` : the machines that runs of allowed events reach.

## Main statements

* `Table.orderly_of_create` : a new table is in order.
* `Machine.of_perform_eq_ok` : an event leaves a table in order, in the acts of a script.
* `Machine.History.orderly` : so does a run.
* `Machine.Reaches.invariant` : what events and grants preserve holds all along.
-/

namespace FeedbackQueue

/-! ### The first table -/

/-- The view of a new table. -/
def View.fresh (P : Params) (now : Nat) : View where
  record _ := {}
  queue place := if place = .stage .unused then List.range P.capacity else []
  marker _ := none
  nextPid := 1
  sweepAt := now + P.sweepEvery
  root := none

namespace Table

variable {P : Params} {t : Table P} {now : Nat}

/-- The chains of a new table. -/
theorem holds_of_fresh_eq_ok (e : fresh P now = .ok t) {place : Place} {c : Chain}
    (hc : t.chain? place = some c) :
    c.Holds t.links (if place = .stage .unused then List.range P.capacity else []) := by
  obtain ⟨sweepAt, -, e⟩ := bind_eq_ok.1 e
  cases e
  rcases place with s | level
  · cases s with
    | unused =>
      cases hc
      exact Chain.holds_upTo
    | runnable => cases hc
    | embryo | sleeping | running | zombie =>
      cases hc
      exact Chain.holds_empty
  · have hlevel := Vector.getElem?_eq_some_iff.1 hc
    obtain ⟨_, rfl⟩ := hlevel
    simpa using Chain.holds_empty

theorem view_of_fresh_eq_ok (e : fresh P now = .ok t) : t.view = .fresh P now := by
  have hqueue : t.queue = (View.fresh P now).queue := by
    funext place
    cases hc : t.chain? place with
    | some c => exact queue_of_holds hc (holds_of_fresh_eq_ok e hc)
    | none =>
      rcases place with s | level
      · cases s <;> cases hc
        simp [queue, chain?, View.fresh]
      · simp [queue, hc, View.fresh]
  obtain ⟨sweepAt, hsweep, e⟩ := bind_eq_ok.1 e
  cases e
  refine View.ext (funext fun i => ?_) hqueue (funext fun cpu => ?_) rfl ?_ rfl
  · simp only [view_record, record, View.fresh]
    by_cases hi : i < P.capacity <;> simp [hi]
  · simp only [view_marker, occupant?, View.fresh]
    by_cases hcpu : cpu < P.cpus <;> simp [hcpu]
  · exact (addBelow_eq_ok.1 hsweep).2.symm

/-- A new table is in order. -/
theorem orderly_of_fresh_eq_ok (e : fresh P now = .ok t) : t.Orderly := by
  have hview := view_of_fresh_eq_ok e
  have hqueue : t.queue = (View.fresh P now).queue := congrArg View.queue hview
  refine ⟨⟨fun place c hc => ?_, ?_⟩, fun _ i hi => ?_⟩
  · rw [hqueue]
    exact holds_of_fresh_eq_ok e hc
  · rw [hview]
    refine ⟨fun place i => ?_, fun _ => Nat.zero_le _, nofun, nofun⟩
    by_cases hplace : place = .stage .unused
    · subst hplace
      simp [View.fresh, Process.home]
    · simp [View.fresh, Process.home, hplace, Ne.symm hplace]
  · rw [hview] at hi
    cases hi

/-- Creating a table with parameters that pass their check. -/
theorem create_eq_ok (e : create P now = .ok (.ok t)) : P.check = .ok () ∧ fresh P now = .ok t := by
  obtain ⟨u, hcheck, hfresh⟩ := bind_eq_ok.1 e
  exact ⟨hcheck, Except.ok.inj hfresh⟩

theorem orderly_of_create (e : create P now = .ok (.ok t)) : t.Orderly ∧ t.view = .fresh P now :=
  ⟨orderly_of_fresh_eq_ok (create_eq_ok e).2, view_of_fresh_eq_ok (create_eq_ok e).2⟩

end Table

/-! ### Files from outside -/

/-- The record with other files. -/
def Process.equip (files : List FileHandle) (cwd : Option FileHandle) (p : Process) : Process :=
  { p with files, cwd }

namespace View

variable {v : View} {i j : Slot} {files : List FileHandle} {cwd : Option FileHandle}

theorem calm_equip : v.Calm (v.revise i (Process.equip files cwd)) :=
  calm_revise ⟨rfl, rfl, rfl, rfl, id⟩

/-- Other files for one slot leave every record as it is but for its files. -/
theorem exists_equip : ∃ files' cwd',
    (v.revise i (Process.equip files cwd)).record j = (v.record j).equip files' cwd' := by
  rw [revise_record, Function.update_apply]
  split
  · subst j
    exact ⟨files, cwd, rfl⟩
  · exact ⟨_, _, rfl⟩

theorem equip_stage :
    ((v.revise i (Process.equip files cwd)).record j).stage = (v.record j).stage := by
  obtain ⟨_, _, e⟩ : ∃ files' cwd', (v.revise i (Process.equip files cwd)).record j =
    (v.record j).equip files' cwd' := exists_equip
  rw [e]
  rfl

end View

/-! ### Machines and events -/

/-- The CPU on whose process's behalf a request is made. -/
def Request.cpu? : Request → Option Cpu
  | .fork cpu | .exit cpu | .terminate cpu | .wait cpu | .poll cpu | .sleep cpu _
  | .sleepFor cpu _ | .yield cpu | .setUid cpu _ | .setGid cpu _ => some cpu
  | _ => none

/-- Whether the process of a suspension has switched away. -/
def Suspension.isSwitched : Suspension → Bool
  | .switching _ _ => true
  | _ => false

/-- A request that waits for an answer. -/
structure Task where
  /-- The process on whose behalf it was made, if any. -/
  caller : Option Pid
  /-- Where it goes on. -/
  suspension : Suspension
  deriving DecidableEq, Repr

/-- A table with what goes on around it. -/
structure Machine (P : Params) where
  /-- The table. -/
  table : Table P
  /-- The requests that wait for an answer. -/
  tasks : List Task := []
  /-- The handoffs that are out, with their CPUs. -/
  handoffs : List (Cpu × Handoff) := []

/-- What happens next, at what the clock reads. -/
inductive Event where
  /-- A request is made. -/
  | start (request : Request) (clock : Clock)
  /-- A request that waits gets its answer. -/
  | answer (task : Task) (reply : task.suspension.call.Answer) (clock : Clock)

namespace Event

/-- What the clock reads in an event. -/
def clock : Event → Clock
  | start _ clock => clock
  | answer _ _ clock => clock

/-- The script of an event. -/
def script : Event → Script
  | start request clock => .start clock request
  | answer task reply clock => .resume clock task.suspension reply

/-- The handoff that an event gives back, with its CPU. -/
def givesBack : Event → Option (Cpu × Handoff)
  | start request _ => request.givesBack
  | answer task reply _ => task.suspension.givesBack reply

/-- The handoff that an event with a result gives out, with its CPU. -/
def givesOut : Event → Progress → Option (Cpu × Handoff)
  | start (.dispatch cpu) _, .returned (.dispatched (some handoff)) => some (cpu, handoff)
  | answer _ _ _, .waiting (.running cpu handoff _) => some (cpu, handoff)
  | _, _ => none

end Event

namespace Machine

variable {P : Params}

/-- The pid of the process on a CPU. -/
def pidOn (m : Machine P) (cpu : Cpu) : Option Pid :=
  (m.table.occupant? cpu).map fun i => (m.table.record i).pid

/-- The process on whose behalf an event happens. -/
def caller (m : Machine P) : Event → Option Pid
  | .start request _ => request.cpu?.bind m.pidOn
  | .answer task _ _ => task.caller

/-- An answer needs a request that waits for it. -/
def CanHappen (m : Machine P) : Event → Prop
  | .start _ _ => True
  | .answer task _ _ => task ∈ m.tasks

/-- The stretch of an event. -/
def stretch (m : Machine P) : Event → Stretch P
  | .start request clock => request.start clock m.table
  | .answer task reply clock => task.suspension.resume clock m.table reply

/-- The machine after an event with a result and a table. -/
def after (m : Machine P) (e : Event) (p : Progress) (t : Table P) : Machine P where
  table := t
  tasks :=
    (match p with
      | .waiting s => [⟨m.caller e, s⟩]
      | .returned _ => []) ++
    match e with
      | .start _ _ => m.tasks
      | .answer task _ _ => m.tasks.erase task
  handoffs := (e.givesOut p).toList ++
    match e.givesBack with
      | some handoff => m.handoffs.erase handoff
      | none => m.handoffs

/-- One event. -/
def perform (m : Machine P) (e : Event) : Except Fault (Progress × Machine P) := do
  let (p, t) ← m.stretch e
  return (p, m.after e p t)

/-- The surrounding machine gives files to a running process for which nothing is under way. -/
structure Grants (m : Machine P) (i : Slot) (files : Multiset FileHandle) (t : Table P) : Prop where
  running : (m.table.record i).stage = .running
  alone : ∀ task ∈ m.tasks, task.caller = some (m.table.record i).pid →
    task.suspension.isSwitched = true
  adds : ∃ files' cwd, m.table.revise i (Process.equip files' cwd) = .ok t ∧
    (↑(files' ++ cwd.toList) : Multiset FileHandle) =
      ↑((m.table.record i).files ++ (m.table.record i).cwd.toList) + files

/-- One step of a run: an event of a machine and its result. -/
structure Step (P : Params) where
  /-- The machine. -/
  before : Machine P
  /-- What happens. -/
  event : Event
  /-- How it ends. -/
  result : Progress

/-- The steps of a run. -/
inductive History (m : Machine P) : (steps : List (Step P)) → Machine P → Prop
  /-- The empty run. -/
  | nil : History m [] m
  /-- A run with one more step. -/
  | event {past : List (Step P)} {m₁ m₂ : Machine P} {e : Event} {p : Progress} :
      History m past m₁ → m₁.CanHappen e → m₁.perform e = .ok (p, m₂) →
      History m (past ++ [⟨m₁, e, p⟩]) m₂
  /-- A run in which a process is given files at last. -/
  | grant {past : List (Step P)} {m₁ : Machine P} {i : Slot} {files : Multiset FileHandle}
      {t : Table P} : History m past m₁ → m₁.Grants i files t →
      History m past { m₁ with table := t }

/-- A run of allowed events leads from one machine to another. -/
def Reaches (allowed : Machine P → Event → Prop) (m m₁ : Machine P) : Prop :=
  ∃ steps, m.History steps m₁ ∧ ∀ s ∈ steps, allowed s.before s.event

/-- An event takes a CPU back from a process that is still running. -/
def Misuses (m : Machine P) (e : Event) : Prop :=
  ∃ cpu handoff, e.givesBack = some (cpu, handoff) ∧ m.table.Misused cpu handoff

variable {m m₁ m₂ : Machine P} {e : Event} {p : Progress} {i : Slot} {files : Multiset FileHandle}
  {t : Table P} {past later : List (Step P)} {allowed allowed' : Machine P → Event → Prop}

/-! ### Grants -/

theorem Grants.exists_view (h : m.Grants i files t) (hm : m.table.Orderly) :
    t.Orderly ∧ ∃ files' cwd, t.view = m.table.view.revise i (Process.equip files' cwd) ∧
      (↑(files' ++ cwd.toList) : Multiset FileHandle) =
        ↑((m.table.record i).files ++ (m.table.record i).cwd.toList) + files := by
  obtain ⟨files', cwd, hrevise, hadds⟩ := h.adds
  have hyields := hm.yields_revise (i := i) (f := Process.equip files' cwd) (fun _ => rfl)
    fun _ => rfl
  obtain ⟨ht, hview⟩ := hyields.of_ok hrevise
  exact ⟨ht, files', cwd, hview, hadds⟩

/-- After a grant no record differs in anything but its files. -/
theorem Grants.exists_equip (h : m.Grants i files t) (hm : m.table.Orderly) (j : Slot) :
    ∃ files' cwd, t.record j = (m.table.record j).equip files' cwd := by
  obtain ⟨-, files', cwd, hview, -⟩ := h.exists_view hm
  change ∃ files' cwd, t.view.record j = _
  rw [hview]
  exact View.exists_equip

theorem Grants.stage_eq (h : m.Grants i files t) (hm : m.table.Orderly) (j : Slot) :
    (t.record j).stage = (m.table.record j).stage := by
  obtain ⟨_, _, e⟩ := h.exists_equip hm j
  rw [e]
  rfl

theorem Grants.calm (h : m.Grants i files t) (hm : m.table.Orderly) :
    m.table.view.Calm t.view := by
  obtain ⟨-, files', cwd, hview, -⟩ := h.exists_view hm
  exact hview ▸ View.calm_equip

theorem Grants.quiet (h : m.Grants i files t) (hm : m.table.Orderly) :
    m.table.view.Quiet t.view := by
  obtain ⟨-, files', cwd, hview, -⟩ := h.exists_view hm
  exact hview ▸ View.quiet_revise id

/-- A grant to a process without files, while no request waits. -/
theorem grants_of_tasks (fs : List FileHandle) (hrunning : (m.table.record i).stage = .running)
    (htasks : m.tasks = [])
    (hfiles : (m.table.record i).files ++ (m.table.record i).cwd.toList = [])
    (hrevise : m.table.revise i (Process.equip fs none) = .ok t) : m.Grants i fs t where
  running := hrunning
  alone := by simp [htasks]
  adds := ⟨fs, none, hrevise, by simp [hfiles]⟩

/-! ### Histories -/

theorem History.trans (h : m.History past m₁) (h' : m₁.History later m₂) :
    m.History (past ++ later) m₂ := by
  induction h' with
  | nil => rwa [List.append_nil]
  | event _ hcan hperform ih =>
    rw [← List.append_assoc]
    exact ih.event hcan hperform
  | grant _ hgrants ih => exact ih.grant hgrants

theorem Reaches.refl : Reaches allowed m m := ⟨[], .nil, List.forall_mem_nil _⟩

theorem Reaches.trans (h : Reaches allowed m m₁) (h' : Reaches allowed m₁ m₂) :
    Reaches allowed m m₂ := by
  obtain ⟨past, hpast, hallowed⟩ := h
  obtain ⟨later, hlater, hallowed'⟩ := h'
  exact ⟨past ++ later, hpast.trans hlater, List.forall_mem_append.2 ⟨hallowed, hallowed'⟩⟩

theorem Reaches.event (h : Reaches allowed m m₁) (hcan : m₁.CanHappen e) (ha : allowed m₁ e)
    (hperform : m₁.perform e = .ok (p, m₂)) : Reaches allowed m m₂ :=
  h.trans ⟨_, History.nil.event hcan hperform, List.forall_mem_singleton.2 ha⟩

theorem Reaches.grant (h : Reaches allowed m m₁) (hgrants : m₁.Grants i files t) :
    Reaches allowed m { m₁ with table := t } :=
  h.trans ⟨[], History.nil.grant hgrants, List.forall_mem_nil _⟩

theorem Reaches.mono (h : Reaches allowed m m₁) (hallowed : ∀ m e, allowed m e → allowed' m e) :
    Reaches allowed' m m₁ := by
  obtain ⟨steps, hrun, hsteps⟩ := h
  exact ⟨steps, hrun, fun s hs => hallowed _ _ (hsteps s hs)⟩

/-- What holds at first and is preserved by every allowed event and by grants holds all along. -/
theorem Reaches.invariant {I : Machine P → Prop} (h : Reaches allowed m m₁) (hm : I m)
    (hstep : ∀ m₁ e p m₂, Reaches allowed m m₁ → I m₁ → m₁.CanHappen e → allowed m₁ e →
      m₁.perform e = .ok (p, m₂) → I m₂)
    (hgrant : ∀ m₁ i files t, Reaches allowed m m₁ → I m₁ → m₁.Grants i files t →
      I { m₁ with table := t }) : I m₁ := by
  obtain ⟨steps, hrun, hsteps⟩ := h
  induction hrun with
  | nil => exact hm
  | event hrun hcan hperform ih =>
    obtain ⟨hpast, hlast⟩ := List.forall_mem_append.1 hsteps
    exact hstep _ _ _ _ ⟨_, hrun, hpast⟩ (ih hpast) hcan (hlast _ List.mem_cons_self) hperform
  | grant hrun hgrants ih => exact hgrant _ _ _ _ ⟨_, hrun, hsteps⟩ (ih hsteps) hgrants

/-- A list of allowed events, one after the other, that ends with a property. -/
def Leads (allowed : Machine P → Event → Prop) (Q : Machine P → Prop) :
    (es : List Event) → Machine P → Prop
  | [], m => Q m
  | e :: es, m => m.CanHappen e ∧ allowed m e ∧
      ∃ p m', m.perform e = .ok (p, m') ∧ Leads allowed Q es m'

/-- A list of allowed events, one after the other, as a history. -/
theorem Leads.exists_history {Q : Machine P → Prop} {es : List Event} (h : Leads allowed Q es m) :
    ∃ steps m', m.History steps m' ∧ steps.map Step.event = es ∧
      (∀ s ∈ steps, allowed s.before s.event) ∧ Q m' := by
  induction es generalizing m with
  | nil => exact ⟨[], m, .nil, rfl, List.forall_mem_nil _, h⟩
  | cons e es ih =>
    obtain ⟨hcan, hallowed, p, m₁, hperform, h⟩ := h
    obtain ⟨steps, m', hrun, hevents, hsteps, hq⟩ := ih h
    exact ⟨⟨m, e, p⟩ :: steps, m', (History.nil.event hcan hperform).trans hrun,
      congrArg (e :: ·) hevents, List.forall_mem_cons.2 ⟨hallowed, hsteps⟩, hq⟩

theorem Leads.exists_reaches {Q : Machine P → Prop} {es : List Event}
    (h : Leads allowed Q es m) : ∃ m', Reaches allowed m m' ∧ Q m' := by
  obtain ⟨steps, m', hrun, -, hsteps, hq⟩ := h.exists_history
  exact ⟨m', ⟨steps, hrun, hsteps⟩, hq⟩

/-- Two such lists with a grant between them. -/
theorem Leads.exists_reaches_grant {Q : Machine P → Prop} {es es' : List Event}
    (h : Leads allowed (fun m => ∃ t, m.Grants i files t ∧
      Leads allowed Q es' { m with table := t }) es m) :
    ∃ m', Reaches allowed m m' ∧ Q m' := by
  obtain ⟨m₁, hbegun, t, hgrants, h⟩ := h.exists_reaches
  obtain ⟨m₂, hrest, hq⟩ := h.exists_reaches
  exact ⟨m₂, (hbegun.grant hgrants).trans hrest, hq⟩

/-! ### Order in every run -/

/-- An event of a machine with a table in order, unless it is a misuse that an audit sees. -/
theorem plays_stretch (h : m.table.Orderly) (hleft : P.audited = true → ¬ m.Misuses e) :
    m.table.Plays (m.stretch e) e.script := by
  cases e with
  | start request clock =>
    exact h.plays_start fun ha cpu handoff hback hmis => hleft ha ⟨cpu, handoff, hback, hmis⟩
  | answer task reply clock =>
    exact h.plays_resume fun ha cpu handoff hback hmis => hleft ha ⟨cpu, handoff, hback, hmis⟩

/-- An audit does not let a misuse pass. -/
theorem not_misuses_of_perform_eq_ok {x : Progress × Machine P} (h : m.table.Orderly)
    (ha : P.audited = true) (hperform : m.perform e = .ok x) : ¬ m.Misuses e := by
  rintro ⟨cpu, handoff, hback, hmis⟩
  obtain ⟨⟨p, t⟩, hstretch, -⟩ := bind_eq_ok.1 hperform
  -- whatever gives a handoff back is a reclaim
  have hreclaim : ∃ now t', m.table.reclaim cpu handoff now = .ok t' := by
    cases e with
    | start request clock =>
      cases request <;> cases hback
      obtain ⟨t', e, -⟩ := bind_eq_ok.1 hstretch
      exact ⟨clock.now, t', e⟩
    | answer task reply clock =>
      obtain ⟨caller, s⟩ := task
      cases s <;> cases hback
      obtain ⟨t', e, -⟩ := bind_eq_ok.1 hstretch
      exact ⟨clock.now, t', e⟩
  obtain ⟨now, t', e⟩ := hreclaim
  exact h.not_misused_of_reclaim_eq_ok ha e hmis

/-- **An event that does not fault leaves a table in order**, in the acts of its script. -/
theorem of_perform_eq_ok (h : m.table.Orderly) (hperform : m.perform e = .ok (p, m₁)) :
    m₁.table.Orderly ∧ m₁ = m.after e p m₁.table ∧
      ∃ acts, m.table.view.Follows P acts m₁.table.view ∧ e.script acts p := by
  have hplays := plays_stretch h fun ha => not_misuses_of_perform_eq_ok h ha hperform
  obtain ⟨⟨p', t⟩, hstretch, hafter⟩ := bind_eq_ok.1 hperform
  obtain ⟨ht, hacts⟩ := hplays.of_ok hstretch
  cases hafter
  exact ⟨ht, rfl, hacts⟩

/-- A table stays in order. -/
theorem History.orderly (h : m.History past m₁) (hm : m.table.Orderly) : m₁.table.Orderly := by
  induction h with
  | nil => exact hm
  | event _ _ hperform ih => exact (of_perform_eq_ok ih hperform).1
  | grant _ hgrants ih =>
    obtain ⟨ht, -⟩ := hgrants.exists_view ih
    exact ht

theorem Reaches.orderly (h : Reaches allowed m m₁) (hm : m.table.Orderly) : m₁.table.Orderly :=
  let ⟨_, hrun, _⟩ := h
  hrun.orderly hm

end Machine

end FeedbackQueue
