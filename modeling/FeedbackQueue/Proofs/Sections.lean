import FeedbackQueue.Proofs.Histories
import Mathlib.Data.List.Chain

/-!
# Critical sections

The table is locked for one operation at a time.  A stretch of a request locks it once or more,
and between two of its *sections*, as between two stretches, others may lock it.  A `Section` says
what one of them can make of a table, in terms of the operations on tables; a run goes through
sections, one after the other.

What a section does to a table in order is one act at most, so what holds of every enabled act holds
of every section, also of those in a stretch that faults later on.

## Main definitions

* `Table.Section` : the table before and after a section.
* `View.Becomes` : a change by one act, or by files from outside.

## Main statements

* `Table.Section.becomes` : a section leaves a table in order, after one act at most.
* `Request.sections`, `Suspension.sections` : every stretch is made of sections.
* `Machine.History.exists_sections` : every run is made of sections.
-/

namespace FeedbackQueue

open Relation (ReflTransGen)

/-- One section, in which the table is locked. -/
inductive Table.Section {P : Params} (t : Table P) : Table P → Prop
  /-- The table is only read, or a request is refused. -/
  | look : Section t t
  /-- A slot is taken. -/
  | conceive {now : Nat} {i : Slot} {t' : Table P} (h : t.conceive now = .ok (some (i, t'))) :
      Section t t'
  /-- A new slot gets its stack. -/
  | giveStack {i : Slot} {stack : KernelStack} {t' : Table P} (h : t.giveStack i stack = .ok t') :
      Section t t'
  /-- The slot of an embryo that gets no stack is freed. -/
  | discard {i : Slot} {t' : Table P} (h : t.discard i = .ok t') : Section t t'
  /-- The slot of a child that cannot be completed is freed. -/
  | abandon {i : Slot} {stack : Option KernelStack} {t' : Table P}
      (h : t.abandon i = .ok (stack, t')) : Section t t'
  /-- The root process starts. -/
  | crown {i : Slot} {name : String} {space : AddressSpace} {pid : Pid} {t' : Table P}
      (h : t.crown i name space = .ok (pid, t')) : Section t t'
  /-- A child starts. -/
  | launch {i : Slot} {plan : Blueprint} {space : AddressSpace} {files : List FileHandle}
      {cwd : Option FileHandle} {pid : Pid} {t' : Table P}
      (h : t.launch i plan space files cwd = .ok (pid, t')) : Section t t'
  /-- The files of a process that exits are taken. -/
  | surrenderFiles {cpu : Cpu} {files : List FileHandle} {t' : Table P}
      (h : t.surrenderFiles cpu = .ok (files, t')) : Section t t'
  /-- A process exits. -/
  | retire {cpu : Cpu} {now : Nat} {t' : Table P} (h : t.retire cpu now = .ok t') : Section t t'
  /-- A process reaps a child. -/
  | scan {cpu : Cpu} {remains : Remains} {u t' : Table P}
      (h : t.scan cpu = .ok (.reaped remains u)) (h' : u.settle = .ok t') : Section t t'
  /-- A process goes to sleep, on its own account or in a wait or a timed sleep. -/
  | park {cpu : Cpu} {channel : Channel} {now : Nat} {t' : Table P}
      (h : t.park cpu channel now = .ok t') : Section t t'
  /-- A process yields. -/
  | yield {cpu : Cpu} {now : Nat} {t' : Table P} (h : t.yield cpu now = .ok t') : Section t t'
  /-- A process that has left the running stage switches away. -/
  | depart {cpu : Cpu} {now : Nat} {t' : Table P} (h : t.depart cpu now = .ok t') : Section t t'
  /-- A CPU takes a process. -/
  | dispatch {cpu : Cpu} {now : Nat} {handoff : Handoff} {t' : Table P}
      (h : t.dispatch cpu now = .ok (some (handoff, t'))) : Section t t'
  /-- A CPU finds nothing to run. -/
  | rest {now : Nat} {t' : Table P} (h : t.rest now = .ok t') : Section t t'
  /-- A CPU is taken back. -/
  | reclaim {cpu : Cpu} {handoff : Handoff} {now : Nat} {t' : Table P}
      (h : t.reclaim cpu handoff now = .ok t') : Section t t'
  /-- The sleepers of a channel are woken. -/
  | signal {channel : Channel} {count : Nat} {t' : Table P}
      (h : t.signal channel = .ok (count, t')) : Section t t'
  /-- One sleeper is woken. -/
  | rouse {i : Slot} {t' : Table P} (h : t.rouse i = .ok t') : Section t t'
  /-- A process is asked to end. -/
  | kill {pid : Pid} {t' : Table P} (h : t.kill pid = .ok (.ok t')) : Section t t'
  /-- A process is put on a level. -/
  | setPriority {pid : Pid} {priority : Nat} {t' : Table P}
      (h : t.setPriority pid priority = .ok (.ok t')) : Section t t'
  /-- The owner of a process is set. -/
  | setUid {cpu : Cpu} {uid : Nat} {t' : Table P} (h : t.setUid cpu uid = .ok (.ok t')) :
      Section t t'
  /-- The group of a process is set. -/
  | setGid {cpu : Cpu} {gid : Nat} {t' : Table P} (h : t.setGid cpu gid = .ok (.ok t')) :
      Section t t'
  /-- A promotion sweep is made. -/
  | sweep {t' : Table P} (h : t.sweep = .ok t') : Section t t'
  /-- A promotion sweep is made if one is due. -/
  | sweepIfDue {now : Nat} {t' : Table P} (h : t.sweepIfDue now = .ok t') : Section t t'
  /-- The surrounding machine opens files for a process. -/
  | equip {i : Slot} {files : List FileHandle} {cwd : Option FileHandle} {t' : Table P}
      (h : t.revise i (Process.equip files cwd) = .ok t') : Section t t'

/-! ### What a section does -/

/-- A change of the view by one act at most, or by files from outside. -/
inductive View.Becomes (P : Params) (v : View) : View → Prop
  /-- Nothing changes. -/
  | same : Becomes P v v
  /-- One act. -/
  | act {a : Act} (he : a.Enabled v) : Becomes P v (a.apply P v)
  /-- A process is given other files. -/
  | equip {i : Slot} {files : List FileHandle} {cwd : Option FileHandle} :
      Becomes P v (v.revise i (Process.equip files cwd))

namespace Table

variable {P : Params} {t t' u : Table P}

/-- A view that is that of an act. -/
theorem becomes_of_apply {a : Act} (he : a.Enabled t.view) (hview : t'.view = a.apply P t.view) :
    t.view.Becomes P t'.view :=
  hview ▸ .act he

/-- **A section leaves a table in order, after one act at most.** -/
theorem Section.becomes (h : t.Section t') (ht : t.Orderly) :
    t'.Orderly ∧ t.view.Becomes P t'.view := by
  cases h with
  | look => exact ⟨ht, .same⟩
  | @conceive now i _ h =>
    obtain ⟨h', hhead, hstage, hview⟩ := ht.yields_conceive.of_ok h
    exact ⟨h', becomes_of_apply (a := .conceive i now) ⟨hhead, hstage⟩ hview⟩
  | @giveStack i stack _ h =>
    obtain ⟨h', hview⟩ := ht.yields_giveStack.of_ok h
    exact ⟨h', becomes_of_apply (a := .giveStack i stack) trivial hview⟩
  | @discard i _ h =>
    obtain ⟨h', hstage, hview⟩ := ht.yields_discard.of_ok h
    exact ⟨h', becomes_of_apply (a := .discard i) hstage hview⟩
  | @abandon i _ _ h =>
    obtain ⟨h', -, hstage, hview⟩ := ht.yields_abandon.of_ok h
    exact ⟨h', becomes_of_apply (a := .abandon i) hstage hview⟩
  | @crown i name space _ _ h =>
    obtain ⟨h', hroot, -, hstage, hview⟩ := ht.yields_crown.of_ok h
    exact ⟨h', becomes_of_apply (a := .crown i name space) ⟨hroot, hstage⟩ hview⟩
  | @launch i plan space files cwd _ _ h =>
    obtain ⟨h', -, hstage, hview⟩ := ht.yields_launch.of_ok h
    exact ⟨h', becomes_of_apply (a := .launch i plan space files cwd) hstage hview⟩
  | @surrenderFiles cpu _ _ h =>
    obtain ⟨h', i, hi, hroot, -, hview⟩ := ht.yields_surrenderFiles.of_ok h
    exact ⟨h', becomes_of_apply (a := .surrender cpu i) ⟨hi, hroot⟩ hview⟩
  | @retire cpu now _ h =>
    obtain ⟨h', i, hi, hstage, hview⟩ := ht.yields_retire.of_ok h
    exact ⟨h', becomes_of_apply (a := .retire cpu i now) ⟨hi, hstage⟩ hview⟩
  | @scan cpu _ _ _ h h' =>
    obtain ⟨me, hme, hu, i, hreapable, -, hview, -⟩ := ht.yields_scan.of_ok h
    obtain rfl := settle_eq_ok h'
    exact ⟨hu, becomes_of_apply (a := .reap cpu me i) ⟨hme, hreapable⟩ hview⟩
  | @park cpu channel now _ h =>
    obtain ⟨h', i, hi, hstage, hview⟩ := ht.yields_park.of_ok h
    exact ⟨h', becomes_of_apply (a := .park cpu i channel now) ⟨hi, hstage⟩ hview⟩
  | @yield cpu now _ h =>
    obtain ⟨h', i, hi, hstage, hview⟩ := ht.yields_yield.of_ok h
    exact ⟨h', becomes_of_apply (a := .yield cpu i now) ⟨hi, hstage⟩ hview⟩
  | @depart cpu now _ h =>
    obtain ⟨h', i, hi, hstage, hview⟩ := ht.yields_depart.of_ok h
    exact ⟨h', becomes_of_apply (a := .depart cpu i now) ⟨hi, hstage⟩ hview⟩
  | @dispatch cpu now handoff _ h =>
    obtain ⟨h', hidle, hnext, hpid, hview⟩ := ht.yields_dispatch.of_ok h
    obtain ⟨-, hstage, hfree⟩ := ht.sound.of_next?_eq_some hnext
    exact ⟨h', becomes_of_apply (a := .dispatch cpu handoff now) ⟨hidle, hstage, hfree, hpid⟩ hview⟩
  | @rest now _ h =>
    obtain ⟨h', hview⟩ := ht.yields_rest.of_ok h
    exact ⟨h', becomes_of_apply (a := .sweepIfDue now) trivial hview⟩
  | @reclaim cpu handoff now _ h =>
    obtain ⟨h', hcpu, hview⟩ := ht.of_reclaim_eq_ok h
    exact ⟨h', becomes_of_apply (a := .reclaim cpu handoff.slot now) hcpu hview⟩
  | @signal channel _ _ h =>
    obtain ⟨u, e, h', hview⟩ := ht.signal_eq_ok channel
    cases h.symm.trans e
    exact ⟨h', becomes_of_apply (a := .wake channel) trivial hview⟩
  | @rouse i _ h =>
    obtain ⟨h', hstage, hview⟩ := ht.yields_rouse.of_ok h
    exact ⟨h', becomes_of_apply (a := .rouse i) hstage hview⟩
  | kill h =>
    obtain ⟨h', i, -, hstage, hview⟩ := ht.yields_kill.of_ok h
    exact ⟨h', becomes_of_apply (a := .kill i) hstage hview⟩
  | @setPriority _ priority _ h =>
    obtain ⟨h', -, i, -, hactive, hview⟩ := ht.yields_setPriority.of_ok h
    exact ⟨h', becomes_of_apply (a := .assign i priority) hactive hview⟩
  | @setUid cpu uid _ h =>
    obtain ⟨h', i, hi, hview⟩ := ht.yields_setUid.of_ok h
    exact ⟨h', becomes_of_apply (a := .setUid cpu i uid) hi hview⟩
  | @setGid cpu gid _ h =>
    obtain ⟨h', i, hi, hview⟩ := ht.yields_setGid.of_ok h
    exact ⟨h', becomes_of_apply (a := .setGid cpu i gid) hi hview⟩
  | sweep h =>
    obtain ⟨h', hview⟩ := ht.sound.yields_sweep.of_ok h
    exact ⟨ht.of_quiet h' (hview ▸ View.quiet_sweep), becomes_of_apply (a := .sweep) trivial hview⟩
  | @sweepIfDue now _ h =>
    obtain ⟨h', hview⟩ := ht.sound.yields_sweepIfDue.of_ok h
    exact ⟨ht.of_quiet h' (hview ▸ View.quiet_sweepIfDue),
      becomes_of_apply (a := .sweepIfDue now) trivial hview⟩
  | @equip i files cwd _ h =>
    have hyields := ht.yields_revise (i := i) (f := Process.equip files cwd) (fun _ => rfl)
      fun _ => rfl
    obtain ⟨h', hview⟩ := hyields.of_ok h
    exact ⟨h', hview ▸ .equip⟩

/-! ### Stretches -/

/-- Sections, one after the other. -/
abbrev Sections (t t' : Table P) : Prop := ReflTransGen Section t t'

variable {p : Progress} {i : Slot} {cpu : Cpu} {now : Nat}

theorem sections_finish {outcome : Outcome} (h : t.finish outcome = .ok (p, t')) :
    t.Sections t' := by
  cases h
  exact .refl

theorem sections_suspend {s : Suspension} (h : t.suspend s = .ok (p, t')) : t.Sections t' := by
  cases h
  exact .refl

theorem sections_allocateFor {purpose : Purpose} (h : t.allocateFor purpose now = .ok (p, t')) :
    t.Sections t' := by
  obtain ⟨result, hresult, h⟩ := bind_eq_ok.1 h
  cases result with
  | none => exact sections_finish h
  | some result => exact .head (.conceive hresult) (sections_suspend h)

theorem sections_abandonFork (h : t.abandonFork i = .ok (p, t')) : t.Sections t' := by
  obtain ⟨⟨stack, u⟩, hu, h⟩ := bind_eq_ok.1 h
  cases stack with
  | none => exact .head (.abandon hu) (sections_finish h)
  | some stack => exact .head (.abandon hu) (sections_suspend h)

theorem sections_furnish {purpose : Purpose} (h : t.furnish i purpose = .ok (p, t')) :
    t.Sections t' := by
  cases purpose with
  | bare => exact sections_finish h
  | root => exact sections_suspend h
  | child plan =>
    unfold furnish at h
    dsimp only at h
    split at h
    · exact sections_suspend h
    · exact sections_abandonFork h

theorem sections_finishFork {plan : Blueprint} {space : AddressSpace} {files : List FileHandle}
    {cwd : Option FileHandle} (h : t.finishFork i plan space files cwd = .ok (p, t')) :
    t.Sections t' := by
  obtain ⟨_, hu, h⟩ := bind_eq_ok.1 h
  exact .head (.launch hu) (sections_finish h)

theorem sections_duplicateFiles {plan : Blueprint} {space : AddressSpace}
    {copies files : List FileHandle}
    (h : t.duplicateFiles i plan space copies files = .ok (p, t')) : t.Sections t' := by
  cases files with
  | cons => exact sections_suspend h
  | nil =>
    unfold duplicateFiles at h
    cases hcwd : plan.cwd with
    | some dir =>
      rw [hcwd] at h
      exact sections_suspend h
    | none =>
      rw [hcwd] at h
      exact sections_finishFork h

theorem sections_closeFiles {last : Resumption} {files : List FileHandle}
    (h : t.closeFiles cpu last now files = .ok (p, t')) : t.Sections t' := by
  cases files with
  | cons => exact sections_suspend h
  | nil =>
    obtain ⟨_, hu, h⟩ := bind_eq_ok.1 h
    exact .head (.retire hu) (sections_suspend h)

theorem sections_exit {last : Resumption} (h : t.exit cpu last now = .ok (p, t')) :
    t.Sections t' := by
  obtain ⟨_, hu, h⟩ := bind_eq_ok.1 h
  exact .head (.surrenderFiles hu) (sections_closeFiles h)

theorem sections_releaseSpace {reaper : Reaper} {pid : Pid} {space : Option AddressSpace}
    (h : t.releaseSpace reaper pid space = .ok (p, t')) : t.Sections t' := by
  cases space with
  | some => exact sections_suspend h
  | none => exact sections_finish h

theorem sections_release {reaper : Reaper} {remains : Remains}
    (h : t.release reaper remains = .ok (p, t')) : t.Sections t' := by
  unfold release at h
  split at h
  · exact sections_suspend h
  · exact sections_releaseSpace h

theorem sections_waitRound (h : t.waitRound cpu now = .ok (p, t')) : t.Sections t' := by
  obtain ⟨result, hscan, h⟩ := bind_eq_ok.1 h
  cases result with
  | noChildren => exact sections_finish h
  | reaped =>
    obtain ⟨_, hu, h⟩ := bind_eq_ok.1 h
    exact .head (.scan hscan hu) (sections_release h)
  | pending =>
    obtain ⟨_, -, h⟩ := bind_eq_ok.1 h
    obtain ⟨_, hu, h⟩ := bind_eq_ok.1 h
    exact .head (.park hu) (sections_suspend h)

theorem sections_poll (h : t.poll cpu = .ok (p, t')) : t.Sections t' := by
  obtain ⟨result, hscan, h⟩ := bind_eq_ok.1 h
  cases result with
  | noChildren | pending => exact sections_finish h
  | reaped =>
    obtain ⟨_, hu, h⟩ := bind_eq_ok.1 h
    exact .head (.scan hscan hu) (sections_release h)

theorem sections_sleepRound {start ticks seen : Nat}
    (h : t.sleepRound cpu start ticks seen now = .ok (p, t')) : t.Sections t' := by
  unfold sleepRound at h
  split at h
  · exact sections_finish h
  · obtain ⟨_, -, h⟩ := bind_eq_ok.1 h
    split at h
    · exact sections_finish h
    · obtain ⟨_, hu, h⟩ := bind_eq_ok.1 h
      exact .head (.park hu) (sections_suspend h)

theorem sections_proceed {clock : Clock} {resumption : Resumption}
    (h : t.proceed cpu clock resumption = .ok (p, t')) : t.Sections t' := by
  cases resumption with
  | exit | proceed => exact sections_finish h
  | terminate => cases h
  | wait => exact sections_waitRound h
  | sleepFor => exact sections_sleepRound h

theorem sections_dispatchRound {forever : Bool}
    (h : t.dispatchRound cpu forever now = .ok (p, t')) : t.Sections t' := by
  obtain ⟨result, hresult, h⟩ := bind_eq_ok.1 h
  cases result with
  | some => exact .head (.dispatch hresult) (sections_suspend h)
  | none =>
    obtain ⟨_, hu, h⟩ := bind_eq_ok.1 h
    cases forever with
    | true => exact .head (.rest hu) (sections_suspend h)
    | false => exact .head (.rest hu) (sections_finish h)

theorem sections_reclaimRound {handoff : Handoff} {forever : Bool}
    (h : t.reclaimRound cpu handoff forever now = .ok (p, t')) : t.Sections t' := by
  obtain ⟨_, hu, h⟩ := bind_eq_ok.1 h
  cases forever with
  | true => exact .head (.reclaim hu) (sections_suspend h)
  | false => exact .head (.reclaim hu) (sections_finish h)

/-- A request that is done in one section, or refused. -/
theorem sections_finishOr {result : Except Refusal (Table P)}
    (h : t.finishOr result = .ok (p, t')) (hdone : ∀ u, result = .ok u → t.Section u) :
    t.Sections t' := by
  cases result with
  | error => exact sections_finish h
  | ok u => exact .head (hdone u rfl) (sections_finish h)

end Table

open Table in
/-- **Every request is made of sections.** -/
theorem Request.sections {P : Params} {t t' : Table P} {p : Progress} {clock : Clock}
    {request : Request} (h : request.start clock t = .ok (p, t')) : t.Sections t' := by
  cases request with
  | allocate => exact sections_allocateFor h
  | boot name image =>
    unfold Request.start at h
    cases hroot : t.root with
    | some r =>
      rw [hroot] at h
      cases h
    | none =>
      rw [hroot] at h
      exact sections_allocateFor h
  | fork =>
    obtain ⟨_, -, h⟩ := bind_eq_ok.1 h
    exact sections_allocateFor h
  | exit | terminate => exact sections_exit h
  | wait => exact sections_waitRound h
  | poll => exact sections_poll h
  | sleepFor => exact sections_sleepRound h
  | sleep =>
    obtain ⟨_, hu, h⟩ := bind_eq_ok.1 h
    exact .head (.park hu) (sections_suspend h)
  | yield =>
    obtain ⟨_, hu, h⟩ := bind_eq_ok.1 h
    exact .head (.yield hu) (sections_suspend h)
  | switch =>
    obtain ⟨_, hu, h⟩ := bind_eq_ok.1 h
    exact .head (.depart hu) (sections_suspend h)
  | pass | serve => exact sections_suspend h
  | dispatch =>
    obtain ⟨result, hresult, h⟩ := bind_eq_ok.1 h
    cases result with
    | none => exact sections_finish h
    | some => exact .head (.dispatch hresult) (sections_finish h)
  | reclaim =>
    obtain ⟨_, hu, h⟩ := bind_eq_ok.1 h
    exact .head (.reclaim hu) (sections_finish h)
  | signal =>
    obtain ⟨_, hu, h⟩ := bind_eq_ok.1 h
    exact .head (.signal hu) (sections_finish h)
  | tick =>
    obtain ⟨_, hu, h⟩ := bind_eq_ok.1 h
    obtain ⟨_, hsignal, hu⟩ := bind_eq_ok.1 hu
    cases hu
    exact .head (.signal hsignal) (sections_finish h)
  | rouse =>
    obtain ⟨_, hu, h⟩ := bind_eq_ok.1 h
    exact .head (.rouse hu) (sections_finish h)
  | kill =>
    obtain ⟨_, hresult, h⟩ := bind_eq_ok.1 h
    exact sections_finishOr h fun u hu => .kill (hu ▸ hresult)
  | setPriority =>
    obtain ⟨_, hresult, h⟩ := bind_eq_ok.1 h
    exact sections_finishOr h fun u hu => .setPriority (hu ▸ hresult)
  | setUid =>
    obtain ⟨_, hresult, h⟩ := bind_eq_ok.1 h
    exact sections_finishOr h fun u hu => .setUid (hu ▸ hresult)
  | setGid =>
    obtain ⟨_, hresult, h⟩ := bind_eq_ok.1 h
    exact sections_finishOr h fun u hu => .setGid (hu ▸ hresult)
  | sweep =>
    obtain ⟨_, hu, h⟩ := bind_eq_ok.1 h
    exact .head (.sweep hu) (sections_finish h)
  | sweepIfDue =>
    obtain ⟨_, hu, h⟩ := bind_eq_ok.1 h
    exact .head (.sweepIfDue hu) (sections_finish h)

open Table in
/-- **Every answer is made of sections.** -/
theorem Suspension.sections {P : Params} {t t' : Table P} {p : Progress} {clock : Clock}
    {s : Suspension} {answer : s.call.Answer} (h : s.resume clock t answer = .ok (p, t')) :
    t.Sections t' := by
  cases s with
  | allocating i purpose =>
    cases answer with
    | some stack =>
      obtain ⟨_, hu, h⟩ := bind_eq_ok.1 h
      exact .head (.giveStack hu) (sections_furnish h)
    | none =>
      obtain ⟨_, hu, h⟩ := bind_eq_ok.1 h
      exact .head (.discard hu) (sections_finish h)
  | mapping i name image =>
    cases answer with
    | some space =>
      obtain ⟨_, hu, h⟩ := bind_eq_ok.1 h
      exact .head (.crown hu) (sections_finish h)
    | none => cases h
  | copying i plan source =>
    cases answer with
    | some space => exact sections_duplicateFiles h
    | none => exact sections_abandonFork h
  | duplicating => exact sections_duplicateFiles h
  | duplicatingCwd => exact sections_finishFork h
  | undoing | freeingSpace => exact sections_finish h
  | closing => exact sections_closeFiles h
  | switching => exact sections_proceed h
  | freeingStack => exact sections_releaseSpace h
  | enabling => exact sections_dispatchRound h
  | running => exact sections_reclaimRound h
  | idling => exact sections_suspend h

/-! ### Runs -/

namespace Machine

variable {P : Params} {m m₁ : Machine P} {e : Event} {p : Progress} {steps : List (Step P)}

theorem sections_of_perform_eq_ok (h : m.perform e = .ok (p, m₁)) :
    m.table.Sections m₁.table := by
  obtain ⟨⟨_, t⟩, hstretch, hafter⟩ := bind_eq_ok.1 h
  cases hafter
  cases e with
  | start => exact Request.sections hstretch
  | answer => exact Suspension.sections hstretch

/-- **Every run is made of sections**, and every event begins at the end of one. -/
theorem History.exists_sections (h : m.History steps m₁) : ∃ tables : List (Table P),
    (m.table :: tables).IsChain Table.Section ∧
      (m.table :: tables).getLast? = some m₁.table ∧
      (steps.map (·.before.table)).Sublist (m.table :: tables) := by
  -- a run goes on with one section that only looks, and others
  have hextend : ∀ {past : List (Step P)} {tables : List (Table P)} {t t' : Table P},
      (m.table :: tables).IsChain Table.Section → (m.table :: tables).getLast? = some t →
      (past.map (·.before.table)).Sublist (m.table :: tables) → t.Sections t' →
      ∃ more : List (Table P), (m.table :: (tables ++ t :: more)).IsChain Table.Section ∧
        (m.table :: (tables ++ t :: more)).getLast? = some t' ∧
        (past.map (·.before.table) ++ [t]).Sublist (m.table :: (tables ++ t :: more)) := by
    intro past tables t t' hchain hlast hpast hsections
    obtain ⟨more, hmore, hend⟩ := List.exists_isChain_cons_of_relationReflTransGen hsections
    refine ⟨more, ?_, ?_, ?_⟩
    · rw [← List.cons_append]
      refine hchain.append hmore fun x hx y hy => ?_
      cases hx.symm.trans hlast
      cases hy
      exact .look
    · rw [← List.cons_append, List.getLast?_append_of_ne_nil _ (List.cons_ne_nil t more),
        List.getLast?_eq_some_getLast (List.cons_ne_nil t more), hend]
    · rw [← List.cons_append]
      exact hpast.append (List.singleton_sublist.2 List.mem_cons_self)
  induction h with
  | nil => exact ⟨[], .singleton _, rfl, List.nil_sublist _⟩
  | event _ _ hperform ih =>
    obtain ⟨tables, hchain, hlast, hpast⟩ := ih
    obtain ⟨more, h⟩ := hextend hchain hlast hpast (sections_of_perform_eq_ok hperform)
    rw [List.map_append]
    exact ⟨_, h⟩
  | grant _ hgrants ih =>
    obtain ⟨tables, hchain, hlast, hpast⟩ := ih
    obtain ⟨_, _, hrevise, -⟩ := hgrants.adds
    obtain ⟨more, hchain, hlast, hpast⟩ := hextend hchain hlast hpast (.single (.equip hrevise))
    exact ⟨_, hchain, hlast, (List.sublist_append_left _ _).trans hpast⟩

end Machine

end FeedbackQueue
