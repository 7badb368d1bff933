import FeedbackQueue.Proofs.Histories
import FeedbackQueue.Proofs.Lockstep
import FeedbackQueue.Proofs.Readings

/-!
# What dead processes leave

A slot that is freed keeps the owner, the level, the budget and the clock readings of its process.
Nothing of this is seen while the slot is free, and taking it writes all of it but the owner, which
is written last, when the new process starts.  So two runs from tables that differ in such remnants
only go the same way: every event has the same result, with the same calls of the surrounding
machine, or ends in the same fault, and what is read in between is the same.  The one exception is
the owner of a process that is being built: a look-up or a listing shows that of the process before.

## Main definitions

* `Machine.Twins` : the invariant of two runs.
* `Machine.Indistinct`, `Machine.Mirrors` : two machines, and all that may happen on them, are the
  same to those who use them.

## Main statements

* `Machine.Twins.perform`, `Machine.Twins.history` : one event, and a whole run.
* `Machine.mirrors_of_alike` : alike tables that runs have reached cannot be told apart.
-/

namespace FeedbackQueue

namespace Table.Twins

variable {P : Params} {t t' : Table P} {i : Slot} {cpu : Cpu} {now : Nat} {plan : Blueprint}
  {space : AddressSpace} {copies files : List FileHandle} {last : Resumption} {reaper : Reaper}
  {pid : Pid}

/-! ### Stretches -/

theorem finish (h : t.Twins t') {outcome : Outcome} :
    Agree Beside (t.finish outcome) (t'.finish outcome) := .ok ⟨rfl, h⟩

theorem suspend (h : t.Twins t') {s : Suspension} : Agree Beside (t.suspend s) (t'.suspend s) :=
  .ok ⟨rfl, h⟩

theorem finishOr (h : t.Twins t') {r r' : Except Refusal (Table P)} (hr : Agree Twins r r') :
    Agree Beside (t.finishOr r) (t'.finishOr r') := by
  cases hr with
  | ok hu => exact hu.finish
  | error => exact h.finish

theorem allocateFor (h : t.Twins t') {purpose : Purpose} :
    Agree Beside (t.allocateFor purpose now) (t'.allocateFor purpose now) := by
  unfold Table.allocateFor
  refine h.conceive.bind fun found found' hfound => ?_
  cases hfound with
  | none => exact h.finish
  | some hx =>
    obtain ⟨hi, hu⟩ := hx
    dsimp only
    rw [hi]
    exact hu.suspend

theorem abandonFork (h : t.Twins t') : Agree Beside (t.abandonFork i) (t'.abandonFork i) := by
  unfold Table.abandonFork
  refine h.abandon.bind ?_
  rintro ⟨stack, u⟩ ⟨_, u'⟩ ⟨rfl, hu⟩
  cases stack with
  | some stack => exact hu.suspend
  | none => exact hu.finish

theorem furnish (h : t.Twins t') (purpose : Purpose) :
    Agree Beside (t.furnish i purpose) (t'.furnish i purpose) := by
  cases purpose with
  | bare => exact h.finish
  | root => exact h.suspend
  | child plan =>
    unfold Table.furnish
    dsimp only
    cases plan.space with
    | some source => exact h.suspend
    | none => exact h.abandonFork

theorem finishFork (h : t.Twins t') {cwd : Option FileHandle} :
    Agree Beside (t.finishFork i plan space files cwd) (t'.finishFork i plan space files cwd) := by
  unfold Table.finishFork
  refine h.launch.bind ?_
  rintro ⟨pid, u⟩ ⟨_, u'⟩ ⟨rfl, hu⟩
  exact hu.finish

theorem duplicateFiles (h : t.Twins t') :
    Agree Beside (t.duplicateFiles i plan space copies files)
      (t'.duplicateFiles i plan space copies files) := by
  cases files with
  | cons file rest => exact h.suspend
  | nil =>
    unfold Table.duplicateFiles
    cases plan.cwd with
    | some dir => exact h.suspend
    | none => exact h.finishFork

theorem closeFiles (h : t.Twins t') :
    Agree Beside (t.closeFiles cpu last now files) (t'.closeFiles cpu last now files) := by
  cases files with
  | cons file rest => exact h.suspend
  | nil => exact h.retire.bind fun _ _ hu => hu.suspend

theorem exit (h : t.Twins t') : Agree Beside (t.exit cpu last now) (t'.exit cpu last now) := by
  unfold Table.exit
  refine h.surrenderFiles.bind ?_
  rintro ⟨files, u⟩ ⟨_, u'⟩ ⟨rfl, hu⟩
  exact hu.closeFiles

theorem releaseSpace (h : t.Twins t') {space : Option AddressSpace} :
    Agree Beside (t.releaseSpace reaper pid space) (t'.releaseSpace reaper pid space) := by
  cases space with
  | some space => exact h.suspend
  | none => exact h.finish

theorem release (h : t.Twins t') {remains : Remains} :
    Agree Beside (t.release reaper remains) (t'.release reaper remains) := by
  unfold Table.release
  cases remains.stack with
  | some stack => exact h.suspend
  | none => exact h.releaseSpace

theorem waitRound (h : t.Twins t') : Agree Beside (t.waitRound cpu now) (t'.waitRound cpu now) := by
  unfold Table.waitRound
  refine h.scan.bind fun found found' hfound => ?_
  cases hfound with
  | noChildren => exact h.finish
  | reaped remains hu => exact hu.settle.bind fun _ _ hv => hv.release
  | pending =>
    refine h.current.bind ?_
    rintro me _ rfl
    exact h.park.bind fun _ _ hu => hu.suspend

theorem poll (h : t.Twins t') : Agree Beside (t.poll cpu) (t'.poll cpu) := by
  unfold Table.poll
  refine h.scan.bind fun found found' hfound => ?_
  cases hfound with
  | noChildren => exact h.finish
  | reaped remains hu => exact hu.settle.bind fun _ _ hv => hv.release
  | pending => exact h.finish

theorem sleepRound (h : t.Twins t') {start ticks seen : Nat} :
    Agree Beside (t.sleepRound cpu start ticks seen now)
      (t'.sleepRound cpu start ticks seen now) := by
  unfold Table.sleepRound
  refine .ite (fun _ => h.finish) fun _ => h.current.bind ?_
  rintro me _ rfl
  exact .ite (fun _ => h.finish) fun _ => h.park.bind fun _ _ hu => hu.suspend

theorem proceed (h : t.Twins t') (clock : Clock) (resumption : Resumption) :
    Agree Beside (t.proceed cpu clock resumption) (t'.proceed cpu clock resumption) := by
  cases resumption with
  | exit | proceed => exact h.finish
  | terminate => exact .error _
  | wait => exact h.waitRound
  | sleepFor => exact h.sleepRound

section Sweeps

variable (h : t.Twins t') (ht : t.Sound) (ht' : t'.Sound) (hlevels : P.maxPriority < word32)

include h ht ht' hlevels

theorem dispatchRound {forever : Bool} :
    Agree Beside (t.dispatchRound cpu forever now) (t'.dispatchRound cpu forever now) := by
  unfold Table.dispatchRound
  refine h.dispatch.bind fun found found' hfound => ?_
  cases hfound with
  | none =>
    exact (h.rest ht ht' hlevels).bind fun _ _ hu => .ite (fun _ => hu.suspend) fun _ => hu.finish
  | some hx =>
    obtain ⟨hhandoff, hu⟩ := hx
    dsimp only
    rw [hhandoff]
    exact hu.suspend

theorem reclaimRound {handoff : Handoff} {forever : Bool} :
    Agree Beside (t.reclaimRound cpu handoff forever now)
      (t'.reclaimRound cpu handoff forever now) := by
  unfold Table.reclaimRound
  exact (h.reclaim ht ht' hlevels).bind fun _ _ hu =>
    .ite (fun _ => hu.suspend) fun _ => hu.finish

/-- A request begins in the same way on twins. -/
theorem request (clock : Clock) (request : Request) :
    Agree Beside (request.start clock t) (request.start clock t') := by
  cases request with
  | allocate => exact h.allocateFor
  | boot name image =>
    unfold Request.start
    rw [h.root_eq]
    exact .ite (fun _ => .error _) fun _ => h.allocateFor
  | fork cpu =>
    refine h.blueprint.bind ?_
    rintro plan _ rfl
    exact h.allocateFor
  | exit | terminate => exact h.exit
  | wait => exact h.waitRound
  | poll => exact h.poll
  | sleep => exact h.park.bind fun _ _ hu => hu.suspend
  | sleepFor => exact h.sleepRound
  | yield => exact h.yield.bind fun _ _ hu => hu.suspend
  | switch => exact h.depart.bind fun _ _ hu => hu.suspend
  | pass | serve => exact h.suspend
  | dispatch cpu =>
    refine h.dispatch.bind fun found found' hfound => ?_
    cases hfound with
    | none => exact h.finish
    | some hx =>
      obtain ⟨hhandoff, hu⟩ := hx
      dsimp only
      rw [hhandoff]
      exact hu.finish
  | reclaim => exact (h.reclaim ht ht' hlevels).bind fun _ _ hu => hu.finish
  | signal channel =>
    refine (h.signal channel).bind ?_
    rintro ⟨count, u⟩ ⟨_, u'⟩ ⟨rfl, hu⟩
    exact hu.finish
  | tick => exact h.tick.bind fun _ _ hu => hu.finish
  | rouse => exact h.rouse.bind fun _ _ hu => hu.finish
  | kill => exact (h.kill _).bind fun _ _ hr => h.finishOr hr
  | setPriority => exact h.setPriority.bind fun _ _ hr => h.finishOr hr
  | setUid => exact h.setUid.bind fun _ _ hr => h.finishOr hr
  | setGid => exact h.setGid.bind fun _ _ hr => h.finishOr hr
  | sweep => exact (h.sweep ht ht' hlevels).bind fun _ _ hu => hu.finish
  | sweepIfDue => exact (h.sweepIfDue ht ht' hlevels).bind fun _ _ hu => hu.finish

/-- A request goes on in the same way on twins. -/
theorem resume (clock : Clock) (s : Suspension) (reply : s.call.Answer) :
    Agree Beside (s.resume clock t reply) (s.resume clock t' reply) := by
  cases s with
  | allocating i purpose =>
    cases reply with
    | some stack => exact h.giveStack.bind fun _ _ hu => hu.furnish purpose
    | none => exact h.discard.bind fun _ _ hu => hu.finish
  | mapping i name image =>
    cases reply with
    | some space =>
      refine h.crown.bind ?_
      rintro ⟨pid, u⟩ ⟨_, u'⟩ ⟨rfl, hu⟩
      exact hu.finish
    | none => exact .error _
  | copying =>
    cases reply with
    | some space => exact h.duplicateFiles
    | none => exact h.abandonFork
  | duplicating => exact h.duplicateFiles
  | duplicatingCwd => exact h.finishFork
  | undoing | freeingSpace => exact h.finish
  | closing => exact h.closeFiles
  | switching _ resumption => exact h.proceed clock resumption
  | freeingStack => exact h.releaseSpace
  | enabling => exact h.dispatchRound ht ht' hlevels
  | running => exact h.reclaimRound ht ht' hlevels
  | idling => exact h.suspend

end Sweeps

end Table.Twins

namespace Machine

variable {P : Params} {m m' m₁ m₁' : Machine P} {steps : List (Step P)} {i : Slot}
  {files : Multiset FileHandle} {t t' : Table P}

/-! ### Steps -/

/-- Two machines with twins in order, and with the same requests and handoffs. -/
structure Twins (m m' : Machine P) : Prop where
  table : m.table.Twins m'.table
  orderly : m.table.Orderly
  orderly' : m'.table.Orderly
  tasks : m'.tasks = m.tasks
  handoffs : m'.handoffs = m.handoffs

theorem Twins.symm (h : m.Twins m') : m'.Twins m :=
  ⟨h.table.symm, h.orderly', h.orderly, h.tasks.symm, h.handoffs.symm⟩

theorem Twins.caller_eq (h : m.Twins m') (e : Event) : m'.caller e = m.caller e := by
  have hpid : m'.pidOn = m.pidOn := by
    funext cpu
    unfold pidOn
    rw [h.table.occupant?_eq]
    exact congrFun (congrArg Option.map (funext fun i => (h.table.record i).pid.symm)) _
  cases e with
  | start request clock =>
    unfold caller
    rw [hpid]
  | answer => rfl

/-- An event has the same result on two machines with twins, and leaves twins; or it ends in the
same fault. -/
theorem Twins.perform (h : m.Twins m') (hlevels : P.maxPriority < word32) (e : Event) :
    Agree (fun x x' => x.1 = x'.1 ∧ x.2.Twins x'.2) (m.perform e) (m'.perform e) := by
  have hstretch : Agree Table.Beside (m.stretch e) (m'.stretch e) := by
    cases e with
    | start request clock =>
      exact h.table.request h.orderly.sound h.orderly'.sound hlevels clock request
    | answer task reply clock =>
      exact h.table.resume h.orderly.sound h.orderly'.sound hlevels clock _ reply
  have hperform : Agree (fun x x' => x.1 = x'.1 ∧ x.2.table.Twins x'.2.table ∧
      x'.2.tasks = x.2.tasks ∧ x'.2.handoffs = x.2.handoffs) (m.perform e) (m'.perform e) := by
    refine hstretch.bind ?_
    rintro ⟨p, t⟩ ⟨_, t'⟩ ⟨rfl, ht⟩
    refine .pure ⟨rfl, ht, ?_, ?_⟩
    · simp only [after, h.caller_eq, h.tasks]
    · simp only [after, h.handoffs]
  refine hperform.tagged.mono ?_
  rintro ⟨p, m₁⟩ ⟨_, m₁'⟩ ⟨⟨rfl, ht, htasks, hhandoffs⟩, e, e'⟩
  exact ⟨rfl, ht, (of_perform_eq_ok h.orderly e).1, (of_perform_eq_ok h.orderly' e').1, htasks,
    hhandoffs⟩

/-- A process is given files in both machines. -/
theorem Twins.grants (h : m.Twins m') (hgrants : m.Grants i files t) :
    ∃ t', m'.Grants i files t' ∧ Twins { m with table := t } { m' with table := t' } := by
  have hsame : m.table.record i = m'.table.record i :=
    (h.table.record i).eq_of_started (by simp [hgrants.running])
  obtain ⟨ht, -⟩ := hgrants.exists_view h.orderly
  obtain ⟨files', cwd, hrevise, hadds⟩ := hgrants.adds
  obtain ⟨t', hrevise', htwins, -⟩ := (h.table.revise_same (f := Process.equip files' cwd) hsame
    fun _ => id).exists_ok hrevise
  have hgrants' : m'.Grants i files t' := by
    refine ⟨hsame ▸ hgrants.running, ?_, files', cwd, hrevise', hsame ▸ hadds⟩
    rw [h.tasks, ← hsame]
    exact hgrants.alone
  exact ⟨t', hgrants', htwins, ht, (hgrants'.exists_view h.orderly').1, h.tasks, h.handoffs⟩

/-! ### Runs -/

/-- What is seen of a step: what happens, and how it ends. -/
def Step.seen (s : Step P) : Event × Progress := (s.event, s.result)

/-- A history on one of two machines with twins is matched on the other. -/
theorem Twins.history (h : m.Twins m') (hlevels : P.maxPriority < word32)
    (hrun : m.History steps m₁) : ∃ steps' m₁', m'.History steps' m₁' ∧
      steps'.map Step.seen = steps.map Step.seen ∧ m₁.Twins m₁' := by
  induction hrun with
  | nil => exact ⟨[], m', .nil, rfl, h⟩
  | @event past m₁ m₂ e p _ hcan hperform ih =>
    obtain ⟨past', m₁', hrun', hseen, h₁⟩ := ih
    obtain ⟨⟨_, m₂'⟩, hperform', rfl, h₂⟩ := (h₁.perform hlevels e).exists_ok hperform
    have hcan' : m₁'.CanHappen e := by
      cases e with
      | start => trivial
      | answer task =>
        change task ∈ m₁'.tasks
        rw [h₁.tasks]
        exact hcan
    refine ⟨past' ++ [⟨m₁', e, p⟩], m₂', hrun'.event hcan' hperform', ?_, h₂⟩
    rw [List.map_append, List.map_append, hseen]
    rfl
  | grant _ hgrants ih =>
    obtain ⟨past', m₁', hrun', hseen, h₁⟩ := ih
    obtain ⟨t', hgrants', h₂⟩ := h₁.grants hgrants
    exact ⟨past', _, hrun'.grant hgrants', hseen, h₂⟩

/-- Two machines are the same to those who use them: what is read of their tables, how events fault,
and what waits. -/
structure Indistinct (m m' : Machine P) : Prop where
  alike : m.table.Alike m'.table
  reads : m.table.ReadsLike m'.table
  faults : ∀ e f, m.perform e = .error f ↔ m'.perform e = .error f
  tasks : m'.tasks = m.tasks
  handoffs : m'.handoffs = m.handoffs

theorem Twins.indistinct (h : m.Twins m') (hlevels : P.maxPriority < word32) : m.Indistinct m' where
  alike := h.table.toAlike
  reads := h.table.readsLike h.orderly.sound
  faults e _ := (h.perform hlevels e).error_iff
  tasks := h.tasks
  handoffs := h.handoffs

/-- Whatever happens on one machine happens on the other in the same way. -/
def Mirrors (m m' : Machine P) : Prop :=
  ∀ steps m₁, m.History steps m₁ → ∃ steps' m₁', m'.History steps' m₁' ∧
    steps'.map Step.seen = steps.map Step.seen ∧ m₁.Indistinct m₁'

theorem Twins.mirrors (h : m.Twins m') (hlevels : P.maxPriority < word32) : m.Mirrors m' := by
  intro steps m₁ hrun
  obtain ⟨steps', m₁', hrun', hseen, h₁⟩ := h.history hlevels hrun
  exact ⟨steps', m₁', hrun', hseen, h₁.indistinct hlevels⟩

/-- **Remnants of dead processes are not seen.**  Take two tables that runs have reached and that
differ at most in level, budget, clock readings and owners of free slots, and in the owners of
processes that are being built.  With the same requests waiting and the same handoffs out, every
history from one of them is matched by a history from the other: the same events with the same
results, and hence the same calls.  It ends in tables that are alike again, on which every event
faults in the same way if it does, and which read the same but for owners of processes that are
being built. -/
theorem mirrors_of_alike {past past' : List (Step P)} {start start' : Nat}
    (hlevels : P.maxPriority < word32)
    (hcreate : Table.create P start = .ok (.ok t)) (hpast : History { table := t } past m)
    (hcreate' : Table.create P start' = .ok (.ok t')) (hpast' : History { table := t' } past' m')
    (h : m.table.Alike m'.table) (tasks : List Task) (handoffs : List (Cpu × Handoff)) :
    Mirrors { table := m.table, tasks, handoffs } { table := m'.table, tasks, handoffs } ∧
      Mirrors { table := m'.table, tasks, handoffs } { table := m.table, tasks, handoffs } := by
  obtain ⟨ht, hview⟩ := Table.orderly_of_create hcreate
  have hm := hpast.orderly ht
  have hm' := hpast'.orderly (Table.orderly_of_create hcreate').1
  have hv := hpast.allStarted ht (hview ▸ allStarted_fresh)
  have htable : m.table.Twins m'.table := h.twins hm.sound hm'.sound fun cpu i hi => hv i ⟨cpu, hi⟩
  have htwins :
      Twins { table := m.table, tasks, handoffs } { table := m'.table, tasks, handoffs } :=
    ⟨htable, hm, hm', rfl, rfl⟩
  exact ⟨htwins.mirrors hlevels, htwins.symm.mirrors hlevels⟩

/-- Two allocations at different ticks, both refused. -/
theorem mirrors_of_refused : ∃ (t : Table ⟨1, 0, 1, 1, 1, true⟩) (past past' : List (Step _))
    (m m' : Machine _), Table.create _ 0 = .ok (.ok t) ∧ History { table := t } past m ∧
      History { table := t } past' m' ∧ m.table.Alike m'.table ∧
      (m.table.record 0).startedAt ≠ (m'.table.record 0).startedAt ∧
      Mirrors { table := m.table } { table := m'.table } := by
  obtain ⟨t, hcreate, hleads⟩ : ∃ t : Table ⟨1, 0, 1, 1, 1, true⟩,
      Table.create _ 0 = .ok (.ok t) ∧ Leads (fun _ _ => True)
        (fun m => Leads (fun _ _ => True)
          (fun m' => m.table.Alike m'.table ∧
            (m.table.record 0).startedAt ≠ (m'.table.record 0).startedAt)
          [.start .allocate 5, .answer ⟨none, .allocating 0 .bare⟩ none 5] { table := t })
        [.start .allocate 0, .answer ⟨none, .allocating 0 .bare⟩ none 0] { table := t } := by
    refine ⟨_, rfl, trivial, trivial, _, _, rfl, List.mem_cons_self, trivial, _, _, rfl, ?_⟩
    refine ⟨trivial, trivial, _, _, rfl, List.mem_cons_self, trivial, _, _, rfl, ?_⟩
    exact ⟨by decide +kernel, by decide +kernel⟩
  obtain ⟨past, m, hpast, -, -, hleads'⟩ := hleads.exists_history
  obtain ⟨past', m', hpast', -, -, halike, hne⟩ := hleads'.exists_history
  exact ⟨t, past, past', m, m', hcreate, hpast, hpast', halike, hne,
    (mirrors_of_alike (by decide) hcreate hpast hcreate hpast' halike [] []).1⟩

/-- A child leaves its owner to the next one: until that one starts, a look-up shows it. -/
theorem lookup_ne_of_fork : ∃ (t : Table ⟨2, 0, 300, 3000, 2, true⟩) (past past' : List (Step _))
    (m m' : Machine _), Table.create _ 0 = .ok (.ok t) ∧ History { table := t } past m ∧
      History { table := t } past' m' ∧ m.table.Alike m'.table ∧ m.table.SameEmbryos m'.table ∧
      m'.tasks = m.tasks ∧ ∃ p n n' s s', m.perform (.start (.fork 0) 0) = .ok (p, n) ∧
        m'.perform (.start (.fork 0) 0) = .ok (p, n') ∧ n.table.lookup 0 3 = .ok (some s) ∧
        n'.table.lookup 0 3 = .ok (some s') ∧ s.uid ≠ s'.uid := by
  obtain ⟨t, hcreate, hleads⟩ : ∃ t : Table ⟨2, 0, 300, 3000, 2, true⟩,
      Table.create _ 0 = .ok (.ok t) ∧ Leads (fun _ _ => True)
        (fun b => Leads (fun _ _ => True)
          (fun m => Leads (fun _ _ => True)
            (fun m' => m.table.Alike m'.table ∧ m.table.SameEmbryos m'.table ∧
              m'.tasks = m.tasks ∧ ∃ p n n' s s', m.perform (.start (.fork 0) 0) = .ok (p, n) ∧
                m'.perform (.start (.fork 0) 0) = .ok (p, n') ∧
                n.table.lookup 0 3 = .ok (some s) ∧
                n'.table.lookup 0 3 = .ok (some s') ∧ s.uid ≠ s'.uid)
            [.start (.setUid 1 7) 0, .start (.exit 1) 0, .start (.reclaim 1 ⟨1, 2⟩) 0,
              .start (.poll 0) 0, .answer ⟨some 1, .freeingStack .poll 2 ⟨1⟩ (some ⟨1⟩)⟩ () 0] b)
          [.start (.exit 1) 0, .start (.reclaim 1 ⟨1, 2⟩) 0, .start (.poll 0) 0,
            .answer ⟨some 1, .freeingStack .poll 2 ⟨1⟩ (some ⟨1⟩)⟩ () 0] b)
        [.start (.boot "" []) 0, .answer ⟨none, .allocating 0 (.root "" [])⟩ (some ⟨0⟩) 0,
          .answer ⟨none, .mapping 0 "" []⟩ (some ⟨0⟩) 0, .start (.dispatch 0) 0, .start (.fork 0) 0,
          .answer ⟨some 1, .allocating 1 (.child rootPlan)⟩ (some ⟨1⟩) 0,
          .answer ⟨some 1, .copying 1 rootPlan ⟨0⟩⟩ (some ⟨1⟩) 0, .start (.dispatch 1) 0]
        { table := t } := by
    refine ⟨_, rfl, trivial, trivial, _, _, rfl, List.mem_cons_self, trivial, _, _, rfl, ?_⟩
    refine ⟨List.mem_cons_self, trivial, _, _, rfl, trivial, trivial, _, _, rfl, ?_⟩
    refine ⟨trivial, trivial, _, _, rfl, List.mem_cons_self, trivial, _, _, rfl, ?_⟩
    refine ⟨List.mem_cons_self, trivial, _, _, rfl, trivial, trivial, _, _, rfl, ?_⟩
    refine ⟨trivial, trivial, _, _, rfl, trivial, trivial, _, _, rfl, ?_⟩
    refine ⟨trivial, trivial, _, _, rfl, List.mem_cons_self, trivial, _, _, rfl, ?_⟩
    refine ⟨trivial, trivial, _, _, rfl, trivial, trivial, _, _, rfl, ?_⟩
    refine ⟨trivial, trivial, _, _, rfl, trivial, trivial, _, _, rfl, ?_⟩
    refine ⟨List.mem_cons_self, trivial, _, _, rfl, ?_⟩
    exact ⟨by decide +kernel, by decide +kernel, by decide +kernel,
      .waiting (.allocating 1 (.child rootPlan)), _, _, _, _, rfl, rfl, rfl, rfl,
      by decide +kernel⟩
  obtain ⟨begun, b, hbegun, -, -, hleads⟩ := hleads.exists_history
  obtain ⟨past, m, hpast, -, -, hleads⟩ := hleads.exists_history
  obtain ⟨past', m', hpast', -, -, halike, hsame, htasks, hfork⟩ := hleads.exists_history
  exact ⟨t, _, _, m, m', hcreate, hbegun.trans hpast, hbegun.trans hpast', halike, hsame, htasks,
    hfork⟩

end Machine

end FeedbackQueue
