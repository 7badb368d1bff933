import FeedbackQueue.Proofs.Kills
import FeedbackQueue.Proofs.Strands
import FeedbackQueue.Proofs.Supplies

/-!
# Collecting exited children

A wait goes round by round, each time on the CPU where its process runs again: it sleeps while there
is a child but none to reap, and ends when there is one to reap or nothing to wait for.  A poll is a
wait of one round that ends where the wait would sleep.

## Main definitions

* `Remains.results` : what a request comes to that frees the remains of a child.
* `Table.Takes` : a stretch comes to results one after the other.
* `Machine.Waits` : the steps of a wait, from round to round.
* `Table.Polls` : what a wait and a poll of the same table have in common.

## Main statements

* `Table.polls_waitRound` : a poll is a wait that does not sleep.
* `Machine.waits_of_strand` : the steps of a wait.
* `Machine.collected_of_history` : both, for all runs.
-/

namespace FeedbackQueue

variable {P : Params}

/-! ### Freeing what is left of a child -/

/-- Whatever the call of one result is answered, and whatever has become of the table, which is left
alone, the other result is next. -/
def Progress.Next (P : Params) (p q : Progress) : Prop :=
  ∃ s, p = .waiting s ∧ ∀ (t : Table P) (answer : s.call.Answer) (clock : Clock),
    s.resume clock t answer = .ok (q, t)

/-- The call of a result that waits. -/
def Progress.call? : Progress → Option Call
  | waiting s => some s.call
  | returned _ => none

namespace Remains

variable {remains : Remains} {reaper : Reaper}

/-- The calls that free what is left of a child, its stack first. -/
def calls (remains : Remains) : List Call :=
  remains.stack.toList.map .freeStack ++ remains.space.toList.map .freeSpace

/-- The results of a request from the reaping of a child to its end. -/
def results (remains : Remains) (reaper : Reaper) : List Progress :=
  remains.stack.toList.map
      (fun stack => .waiting (.freeingStack reaper remains.pid stack remains.space)) ++
    remains.space.toList.map (fun space => .waiting (.freeingSpace reaper remains.pid space)) ++
    [.returned (reaper.outcome remains.pid)]

/-- Whoever reaps a child makes the same calls. -/
theorem filterMap_results : (remains.results reaper).filterMap Progress.call? = remains.calls := by
  obtain ⟨pid, _ | stack, _ | space⟩ := remains <;> rfl

theorem isChain_results : (remains.results reaper).IsChain (Progress.Next P) := by
  obtain ⟨pid, _ | stack, _ | space⟩ := remains
  · exact .singleton _
  · exact .cons_cons ⟨_, rfl, fun _ _ _ => rfl⟩ (.singleton _)
  · exact .cons_cons ⟨_, rfl, fun _ _ _ => rfl⟩ (.singleton _)
  · exact .cons_cons ⟨_, rfl, fun _ _ _ => rfl⟩
      (.cons_cons ⟨_, rfl, fun _ _ _ => rfl⟩ (.singleton _))

end Remains

namespace Table

variable {t t' : Table P} {cpu : Cpu} {me i : Slot} {now : Nat} {p : Progress}

/-- A stretch that ends with a table comes to a list of results, one after the other. -/
structure Takes (t : Table P) (r : Stretch P) (results : List Progress) : Prop where
  head : ∃ p, results.head? = some p ∧ r = .ok (p, t)
  next : results.IsChain (Progress.Next P)

theorem takes_release (t : Table P) (reaper : Reaper) (remains : Remains) :
    t.Takes (t.release reaper remains) (remains.results reaper) := by
  refine ⟨?_, Remains.isChain_results⟩
  obtain ⟨pid, _ | stack, _ | space⟩ := remains <;> exact ⟨_, rfl, rfl⟩

/-! ### Rounds -/

/-- A wait and a poll of the same table, on a CPU. -/
inductive Polls (t : Table P) (cpu : Cpu) (now : Nat) (wait poll : Stretch P) : Prop
  /-- Both fault. -/
  | faults {f : Fault} (hwait : wait = .error f) (hpoll : poll = .error f)
  /-- The wait goes to sleep, and the poll has found nothing and leaves the table as it is. -/
  | sleeps (hwait : wait = do
        let me ← t.current cpu
        let t ← t.park cpu (.process me.pid) now
        t.suspend (.switching cpu .wait))
      (hpoll : poll = .ok (.returned (.polled (.ok none)), t))
  /-- Both are refused. -/
  | refuses (hwait : wait = .ok (.returned (.waited (.error .noChildren) cpu), t))
      (hpoll : poll = .ok (.returned (.polled (.error .noChildren)), t))
  /-- Both reap the same child and go on alike, with the same table and the same calls. -/
  | reaps {t' : Table P} {remains : Remains} (hwait : t'.Takes wait (remains.results (.wait cpu)))
      (hpoll : t'.Takes poll (remains.results .poll))
      (hcalls : (remains.results (.wait cpu)).filterMap Progress.call? =
        (remains.results .poll).filterMap Progress.call?)

/-- **A poll is a wait that does not sleep**, whatever the table. -/
theorem polls_waitRound (t : Table P) (cpu : Cpu) (now : Nat) :
    t.Polls cpu now (t.waitRound cpu now) (t.poll cpu) := by
  unfold waitRound poll
  cases t.scan cpu with
  | error f => exact .faults rfl rfl
  | ok result =>
    cases result with
    | noChildren => exact .refuses rfl rfl
    | pending => exact .sleeps rfl rfl
    | reaped remains t₁ =>
      change t.Polls cpu now (t₁.settle >>= _) (t₁.settle >>= _)
      cases t₁.settle with
      | error f => exact .faults rfl rfl
      | ok t₂ =>
        exact .reaps (t₂.takes_release _ remains) (t₂.takes_release _ remains)
          (Remains.filterMap_results.trans Remains.filterMap_results.symm)

/-- A poll has found nothing yet exactly where a wait would sleep. -/
theorem Orderly.polls_none_iff (h : t.Orderly) (hi : t.occupant? cpu = some i)
    (hrunning : (t.record i).stage = .running)
    (hfits : (t.record i).cpuTicks + (now - (t.record i).dispatchedAt) < word64) :
    (∃ t', t.poll cpu = .ok (.returned (.polled (.ok none)), t')) ↔
      ∃ t', t.waitRound cpu now = .ok (.waiting (.switching cpu .wait), t') := by
  cases t.polls_waitRound cpu now with
  | faults hwait hpoll =>
    simp [hwait, hpoll]
  | sleeps hwait hpoll =>
    obtain ⟨q, hcurrent, -⟩ := yields_current.exists_ok ⟨i, hi, h.sound.valid.marker_lt cpu i hi⟩
    have hpark : Yields _ (t.park cpu (.process q.pid) now) _ := h.yields_park
    obtain ⟨t', e, -⟩ := hpark.exists_ok ⟨i, hi, hrunning, hfits⟩
    refine ⟨fun _ => ⟨t', ?_⟩, fun _ => ⟨t, hpoll⟩⟩
    rw [hwait, hcurrent]
    exact bind_eq_ok.2 ⟨q, rfl, bind_eq_ok.2 ⟨t', e, rfl⟩⟩
  | refuses hwait hpoll =>
    simp [hwait, hpoll]
  | @reaps t' remains hwait hpoll =>
    obtain ⟨p, hp, e⟩ := hwait.head
    obtain ⟨q, hq, e'⟩ := hpoll.head
    rw [e, e']
    -- neither of them is the first result of a request that has reaped a child
    constructor
    · rintro ⟨_, heq⟩
      cases heq
      obtain ⟨_, _ | _, _ | _⟩ := remains <;> cases hq
    · rintro ⟨_, heq⟩
      cases heq
      obtain ⟨_, _ | _, _ | _⟩ := remains <;> cases hp

/-- What a round of a wait comes to when it has found something, in slot `me`. -/
inductive Looks (t : Table P) (cpu : Cpu) (me : Slot) :
    (found : Scan P) → (p : Progress) → (t' : Table P) → Prop
  /-- It has a child, but none to reap, and goes to sleep. -/
  | sleeps {t' : Table P} (hasleep : (t'.record me).sleepsOn (.process (t.record me).pid) = true) :
      Looks t cpu me .pending (.waiting (.switching cpu .wait)) t'
  /-- It has nothing to wait for. -/
  | refuses : Looks t cpu me .noChildren (.returned (.waited (.error .noChildren) cpu)) t
  /-- It reaps a child. -/
  | reaps {p : Progress} {t' : Table P} {remains : Remains}
      (htakes : t'.Takes (.ok (p, t')) (remains.results (.wait cpu))) :
      Looks t cpu me (.reaped remains t') p t'

theorem Orderly.looks_waitRound (h : t.Orderly) (hme : t.occupant? cpu = some me)
    (hround : t.waitRound cpu now = .ok (p, t')) :
    ∃ found, t.Finds me found ∧ t.Looks cpu me found p t' := by
  obtain ⟨found, hscan, hrest⟩ := bind_eq_ok.1 hround
  obtain ⟨j, hj, hfinds⟩ := h.yields_scan.of_ok hscan
  cases hme.symm.trans hj
  refine ⟨found, hfinds, ?_⟩
  cases found with
  | noChildren =>
    cases hrest
    exact .refuses
  | pending =>
    obtain ⟨q, hcurrent, hrest⟩ := bind_eq_ok.1 hrest
    obtain ⟨j, hj, rfl⟩ := yields_current.of_ok hcurrent
    cases hme.symm.trans hj
    obtain ⟨t₁, hpark, hend⟩ := bind_eq_ok.1 hrest
    cases hend
    exact .sleeps (h.sleepsOn_of_park hme hpark)
  | reaped remains t₁ =>
    have htakes := t₁.takes_release (.wait cpu) remains
    dsimp only at hrest
    rw [hfinds.1.settle_eq] at hrest
    change t₁.release _ remains = _ at hrest
    rw [hrest] at htakes
    obtain ⟨q, -, hq⟩ := htakes.head
    cases hq
    exact .reaps htakes

end Table

/-! ### Waits -/

namespace Machine

variable {steps past rounds rest : List (Step P)} {s last scan : Step P} {caller : Option Pid}
  {cpu : Cpu} {first : Clock} {found : Scan P} {remains : Remains}

/-- A round of a wait: the process is at work on a CPU, finds something and goes on. -/
def Step.Looks (s : Step P) (caller : Option Pid) (cpu : Cpu) (found : Scan P) : Prop :=
  ∃ me m₁, s.before.table.view.Works cpu me caller ∧
    s.before.perform s.event = .ok (s.result, m₁) ∧ s.before.table.Finds me found ∧
    s.before.table.Looks cpu me found s.result m₁.table

/-- The steps of a wait for a process. -/
inductive Waits (caller : Option Pid) : (steps : List (Step P)) → Prop
  /-- It has gone to sleep in every round. -/
  | sleeps {rounds : List (Step P)} (hrounds : ∀ s ∈ rounds, ∃ cpu, s.Looks caller cpu .pending) :
      Waits caller rounds
  /-- In the last round it has found nothing to wait for. -/
  | refuses {rounds : List (Step P)} {last : Step P} {cpu : Cpu}
      (hrounds : ∀ s ∈ rounds, ∃ cpu, s.Looks caller cpu .pending)
      (hlast : last.Looks caller cpu .noChildren) : Waits caller (rounds ++ [last])
  /-- In the last round it has reaped a child, and it has freed what is left of it since. -/
  | reaps {rounds rest : List (Step P)} {scan : Step P} {cpu : Cpu} {pid : Pid}
      {stack : KernelStack} {space : AddressSpace} {t : Table P}
      (hrounds : ∀ s ∈ rounds, ∃ cpu, s.Looks caller cpu .pending)
      (hscan : scan.Looks caller cpu (.reaped ⟨pid, some stack, some space⟩ t))
      (hrest : (scan :: rest).map Step.result <+:
        Remains.results ⟨pid, some stack, some space⟩ (.wait cpu)) :
      Waits caller (rounds ++ scan :: rest)

/-- The steps of a wait for a process that has ended in an outcome. -/
inductive Waited (caller : Option Pid) : (steps : List (Step P)) → (outcome : Outcome) → Prop
  /-- In the last round it has found nothing to wait for. -/
  | refused {rounds : List (Step P)} {last : Step P} {cpu : Cpu}
      (hlast : last.Looks caller cpu .noChildren) :
      Waited caller (rounds ++ [last]) (.waited (.error .noChildren) cpu)
  /-- In the last round it has reaped a child, and then it has freed the stack and the address space
  of the child. -/
  | reaped {rounds rest : List (Step P)} {scan : Step P} {cpu : Cpu} {pid : Pid}
      {stack : KernelStack} {space : AddressSpace} {t : Table P}
      (hscan : scan.Looks caller cpu (.reaped ⟨pid, some stack, some space⟩ t))
      (hrest : (scan :: rest).map Step.result =
        [.waiting (.freeingStack (.wait cpu) pid stack (some space)),
          .waiting (.freeingSpace (.wait cpu) pid space), .returned (.waited (.ok pid) cpu)]) :
      Waited caller (rounds ++ scan :: rest) (.waited (.ok pid) cpu)

theorem Step.Looks.result_of_pending (h : s.Looks caller cpu .pending) :
    s.result = .waiting (.switching cpu .wait) := by
  obtain ⟨me, m₁, -, -, -, hlooks⟩ := h
  generalize s.result = p, m₁.table = t at hlooks
  cases hlooks
  rfl

theorem Step.Looks.result_of_noChildren (h : s.Looks caller cpu .noChildren) :
    s.result = .returned (.waited (.error .noChildren) cpu) := by
  obtain ⟨me, m₁, -, -, -, hlooks⟩ := h
  generalize s.result = p, m₁.table = t, s.before.table = t' at hlooks
  cases hlooks
  rfl

/-- A child that is reaped has had a stack and an address space. -/
theorem Step.Looks.exists_remains {t : Table P} (h : s.Looks caller cpu (.reaped remains t))
    (hs : s.before.Supplied) : ∃ pid stack space, remains = ⟨pid, some stack, some space⟩ := by
  obtain ⟨me, m₁, -, -, ⟨-, i, ⟨hzombie, -⟩, -, -, rfl⟩, -⟩ := h
  obtain ⟨hstack, hspace⟩ := hs.started i (View.started_of_zombie hzombie)
  obtain ⟨stack, hstack⟩ := Option.ne_none_iff_exists'.1 hstack
  obtain ⟨space, hspace⟩ := Option.ne_none_iff_exists'.1 hspace
  exact ⟨_, stack, space, congrArg₂ (Remains.mk _) hstack hspace⟩

theorem Step.Lawful.looks (h : s.Lawful) (hscans : s.event.scans? = some cpu) :
    ∃ found, s.Looks (s.before.caller s.event) cpu found := by
  obtain ⟨me, hw⟩ := h.disciplined.works cpu (Event.cpu_of_scans hscans)
  obtain ⟨m₁, hperform⟩ := h.performs
  obtain ⟨⟨p, t⟩, hstretch, hafter⟩ := bind_eq_ok.1 hperform
  rw [stretch_of_scans hscans] at hstretch
  obtain ⟨found, hfinds, hlooks⟩ := h.kept.regular.orderly.looks_waitRound hw.marker hstretch
  refine ⟨found, me, m₁, hw, hperform, hfinds, ?_⟩
  cases hafter
  exact hlooks

/-- One more round. -/
theorem waits_of_looks (hrounds : ∀ s ∈ rounds, ∃ cpu, s.Looks caller cpu .pending)
    (hlast : last.Looks caller cpu found) (hsupplied : last.before.Supplied) :
    Waits caller (rounds ++ [last]) := by
  cases found with
  | noChildren => exact .refuses hrounds hlast
  | pending =>
    exact .sleeps (List.forall_mem_append.2 ⟨hrounds, List.forall_mem_singleton.2 ⟨cpu, hlast⟩⟩)
  | reaped remains t =>
    obtain ⟨pid, stack, space, rfl⟩ := hlast.exists_remains hsupplied
    refine .reaps hrounds hlast ?_
    obtain ⟨me, m₁, -, -, -, hlooks⟩ := hlast
    generalize hresult : last.result = p at hlooks
    cases hlooks with
    | reaps htakes =>
      obtain ⟨q, hhead, hq⟩ := htakes.head
      cases hq
      obtain ⟨results, hresults⟩ := List.head?_eq_some_iff.1 hhead
      exact ⟨results, by rw [hresults, List.map_singleton, hresult, List.singleton_append]⟩

/-- What is left of a child is freed in one step after the other. -/
theorem results_of_resume {results : List Progress} {suspension : Suspension}
    {reply : suspension.call.Answer} {p : Progress} {clock : Clock} {t t' : Table P}
    (hresults : results <+: remains.results (.wait cpu))
    (hlast : results.getLast? = some (.waiting suspension))
    (hresume : suspension.resume clock t reply = .ok (p, t')) :
    results ++ [p] <+: remains.results (.wait cpu) := by
  obtain ⟨todo, htodo⟩ := hresults
  cases todo with
  | nil =>
    have hend := congrArg List.getLast? htodo
    rw [List.append_nil, hlast, Remains.results, List.getLast?_concat] at hend
    cases hend
  | cons q todo =>
    have hchain : (remains.results (.wait cpu)).IsChain (Progress.Next P) :=
      Remains.isChain_results
    rw [← htodo, List.isChain_append] at hchain
    obtain ⟨_, hs, hnext⟩ := hchain.2.2 _ hlast q rfl
    cases hs
    cases (hnext t reply clock).symm.trans hresume
    exact ⟨todo, by rw [← htodo, List.append_assoc, List.singleton_append]⟩

/-- Nothing is left of a child when the wait ends. -/
theorem results_of_returned {results : List Progress} {outcome : Outcome}
    (hresults : results <+: remains.results (.wait cpu))
    (hlast : results.getLast? = some (.returned outcome)) :
    results = remains.results (.wait cpu) ∧ outcome = .waited (.ok remains.pid) cpu := by
  rcases List.prefix_concat_iff.1 hresults with heq | hwaiting
  · rw [heq, List.getLast?_concat] at hlast
    cases hlast
    exact ⟨heq, rfl⟩
  · have hmem := hwaiting.subset (List.mem_of_getLast? hlast)
    simp at hmem

theorem getLast?_map_result (h : (rounds ++ scan :: rest).getLast? = some last) :
    ((scan :: rest).map Step.result).getLast? = some last.result := by
  rw [List.getLast?_append_of_ne_nil _ (List.cons_ne_nil _ _)] at h
  rw [List.getLast?_map, h, Option.map_some]

/-- One more answer. -/
theorem Waits.answer {suspension : Suspension} {m : Machine P} {reply : suspension.call.Answer}
    {clock : Clock} {p : Progress} (h : Waits caller steps) (hlast : steps.getLast? = some last)
    (hresult : last.result = .waiting suspension)
    (hlawful : Step.Lawful ⟨m, .answer ⟨caller, suspension⟩ reply clock, p⟩)
    (hsupplied : m.Supplied) :
    Waits caller (steps ++ [⟨m, .answer ⟨caller, suspension⟩ reply clock, p⟩]) := by
  cases h with
  | sleeps hrounds =>
    obtain ⟨cpu, hpending⟩ := hrounds last (List.mem_of_getLast? hlast)
    cases hresult.symm.trans hpending.result_of_pending
    obtain ⟨found, hnew⟩ := hlawful.looks rfl
    exact waits_of_looks hrounds hnew hsupplied
  | refuses hrounds hrefused =>
    rw [List.getLast?_concat] at hlast
    cases hlast
    cases hresult.symm.trans hrefused.result_of_noChildren
  | reaps hrounds hscan hrest =>
    obtain ⟨_, hperform⟩ := hlawful.performs
    obtain ⟨⟨q, t'⟩, hstretch, hafter⟩ := bind_eq_ok.1 hperform
    cases hafter
    have hresults := results_of_resume hrest (hresult ▸ getLast?_map_result hlast) hstretch
    rw [List.append_assoc, List.cons_append]
    refine .reaps hrounds hscan ?_
    rwa [← List.cons_append, List.map_append]

/-- How a wait ends. -/
theorem Waits.waited {outcome : Outcome} (h : Waits caller steps)
    (hlast : steps.getLast? = some last) (hresult : last.result = .returned outcome) :
    Waited caller steps outcome := by
  cases h with
  | sleeps hrounds =>
    obtain ⟨cpu, hpending⟩ := hrounds last (List.mem_of_getLast? hlast)
    cases hresult.symm.trans hpending.result_of_pending
  | refuses hrounds hrefused =>
    rw [List.getLast?_concat] at hlast
    cases hlast
    cases hresult.symm.trans hrefused.result_of_noChildren
    exact .refused hrefused
  | reaps hrounds hscan hrest =>
    obtain ⟨hall, rfl⟩ := results_of_returned hrest (hresult ▸ getLast?_map_result hlast)
    exact .reaped hscan hall

/-- **The steps of a wait**, one after the other. -/
theorem waits_of_strand (h : Strand (.wait cpu) first past last)
    (hlawful : ∀ s ∈ past ++ [last], s.Lawful)
    (hsupplied : ∀ s ∈ past ++ [last], s.before.Supplied) :
    Waits (last.before.caller last.event) (past ++ [last]) := by
  induction h with
  | start =>
    obtain ⟨found, hlooks⟩ := (hlawful _ List.mem_cons_self).looks rfl
    exact waits_of_looks (List.forall_mem_nil _) hlooks (hsupplied _ List.mem_cons_self)
  | @answer past last m task reply clock p hstrand htask ih =>
    obtain ⟨hpast, hnew⟩ := List.forall_mem_append.1 hlawful
    obtain ⟨hpast', hnew'⟩ := List.forall_mem_append.1 hsupplied
    obtain ⟨hcaller, hresult⟩ := Step.task?_eq_some htask
    obtain ⟨caller, suspension⟩ := task
    obtain rfl : caller = last.before.caller last.event := hcaller
    exact (ih hpast hpast').answer List.getLast?_concat hresult (hnew _ List.mem_cons_self)
      (hnew' _ List.mem_cons_self)

/-- **Collecting exited children.**  In a disciplined run a wait sleeps only while there is a child
and none to reap, and it ends when it has reaped the first child that can be reaped and has freed
the stack and then the address space of the child, or when there is nothing to wait for.  Whatever
the table, a poll is a wait that does not sleep; and where a wait would sleep, it finds nothing and
changes nothing. -/
theorem collected_of_history {t : Table P} {start : Nat} {m : Machine P}
    (hcreate : Table.create P start = .ok (.ok t)) (hrun : History { table := t } steps m)
    (hdisciplined : ∀ s ∈ steps, s.before.Disciplined s.event) :
    (∀ cpu first past last, Strand (.wait cpu) first past last →
      (past ++ [last]).Sublist steps → Waits (last.before.caller last.event) (past ++ [last]) ∧
        ∀ outcome, last.result = .returned outcome →
          Waited (last.before.caller last.event) (past ++ [last]) outcome) ∧
    (∀ (u : Table P) cpu clock,
      u.Polls cpu clock.now ((Request.wait cpu).start clock u) ((Request.poll cpu).start clock u)) ∧
    ∀ cpu i clock, m.table.occupant? cpu = some i → (m.table.record i).stage = .running →
      (m.table.record i).cpuTicks + (clock.now - (m.table.record i).dispatchedAt) < word64 →
      ((∃ t', (Request.poll cpu).start clock m.table = .ok (.returned (.polled (.ok none)), t')) ↔
        ∃ t', (Request.wait cpu).start clock m.table =
          .ok (.waiting (.switching cpu .wait), t')) := by
  have hk := kept_of_create hcreate
  refine ⟨fun cpu first past last hstrand hsub => ?_,
    fun u cpu clock => u.polls_waitRound cpu clock.now, ?_⟩
  · have hlawful := hrun.lawful hk hdisciplined
    have hsupplied := hrun.supplied_before hk.regular.orderly ⟨nofun, .nil⟩
      (supplied_of_create hcreate)
    have hwaits := waits_of_strand hstrand (fun s hs => hlawful s (hsub.subset hs))
      fun s hs => hsupplied s (hsub.subset hs)
    exact ⟨hwaits, fun outcome => hwaits.waited List.getLast?_concat⟩
  · exact fun cpu i clock => (hrun.orderly hk.regular.orderly).polls_none_iff

/-- The root process waits for its child and goes to sleep; the child exits, and the root process
reaps it when it runs again. -/
theorem collected_of_sleeping : ∃ (t : Table ⟨2, 0, 1, 1, 1, true⟩) (steps past : List (Step _))
    (last : Step _) (m : Machine _), Table.create _ 0 = .ok (.ok t) ∧
      History { table := t } steps m ∧ Strand (.wait 0) 0 past last ∧
      (past ++ [last]).Sublist steps ∧ past.length = 3 ∧
      Waits (some 1) (past ++ [last]) ∧ Waited (some 1) (past ++ [last]) (.waited (.ok 2) 0) := by
  obtain ⟨t, hcreate, hleads⟩ : ∃ t : Table ⟨2, 0, 1, 1, 1, true⟩,
      Table.create _ 0 = .ok (.ok t) ∧ Leads Disciplined (fun m =>
        m.Disciplined (.start (.wait 0) 0) ∧ m.caller (.start (.wait 0) 0) = some 1 ∧
        ∃ m', m.perform (.start (.wait 0) 0) = .ok (.waiting (.switching 0 .wait), m') ∧
          Leads Disciplined (fun m =>
            m.CanHappen (.answer ⟨some 1, .switching 0 .wait⟩ 0 0) ∧
            m.Disciplined (.answer ⟨some 1, .switching 0 .wait⟩ 0 0) ∧
            ∃ m₁, m.perform (.answer ⟨some 1, .switching 0 .wait⟩ 0 0) =
                .ok (.waiting (.freeingStack (.wait 0) 2 ⟨1⟩ (some ⟨1⟩)), m₁) ∧
              m₁.CanHappen (.answer ⟨some 1, .freeingStack (.wait 0) 2 ⟨1⟩ (some ⟨1⟩)⟩ () 0) ∧
            ∃ m₂, m₁.perform (.answer ⟨some 1, .freeingStack (.wait 0) 2 ⟨1⟩ (some ⟨1⟩)⟩ () 0) =
                .ok (.waiting (.freeingSpace (.wait 0) 2 ⟨1⟩), m₂) ∧
              m₂.CanHappen (.answer ⟨some 1, .freeingSpace (.wait 0) 2 ⟨1⟩⟩ () 0) ∧
            ∃ m₃, m₂.perform (.answer ⟨some 1, .freeingSpace (.wait 0) 2 ⟨1⟩⟩ () 0) =
                .ok (.returned (.waited (.ok 2) 0), m₃))
          [.start (.reclaim 0 ⟨0, 1⟩) 0, .start (.dispatch 0) 0, .start (.exit 0) 0,
            .start (.reclaim 0 ⟨1, 2⟩) 0, .start (.dispatch 0) 0] m')
      [.start (.boot "" []) 0, .answer ⟨none, .allocating 0 (.root "" [])⟩ (some ⟨0⟩) 0,
        .answer ⟨none, .mapping 0 "" []⟩ (some ⟨0⟩) 0, .start (.dispatch 0) 0, .start (.fork 0) 0,
        .answer ⟨some 1, .allocating 1 (.child rootPlan)⟩ (some ⟨1⟩) 0,
        .answer ⟨some 1, .copying 1 rootPlan ⟨0⟩⟩ (some ⟨1⟩) 0] { table := t } := by
    have hnone {m : Machine ⟨2, 0, 1, 1, 1, true⟩} {e : Event} (hcpu : e.cpu? = none)
        (hback : e.givesBack = none) : m.Disciplined e :=
      (considerate_of_none hcpu hback).disciplined
    refine ⟨_, rfl, trivial, hnone rfl rfl, _, _, rfl, ?_⟩
    refine ⟨List.mem_cons_self, hnone rfl rfl, _, _, rfl, ?_⟩
    refine ⟨List.mem_cons_self, hnone rfl rfl, _, _, rfl, ?_⟩
    refine ⟨trivial, hnone rfl rfl, _, _, rfl, ?_⟩
    refine ⟨trivial, disciplined_of_works (i := 0) rfl rfl ⟨rfl, rfl, rfl⟩ nofun, _, _, rfl, ?_⟩
    refine ⟨List.mem_cons_self, hnone rfl rfl, _, _, rfl, ?_⟩
    refine ⟨List.mem_cons_self, hnone rfl rfl, _, _, rfl, ?_⟩
    refine ⟨disciplined_of_works (i := 0) rfl rfl ⟨rfl, rfl, rfl⟩ nofun, rfl, _, rfl, ?_⟩
    refine ⟨trivial, disciplined_of_reclaim rfl rfl List.mem_cons_self (by decide), _, _, rfl, ?_⟩
    refine ⟨trivial, hnone rfl rfl, _, _, rfl, ?_⟩
    refine ⟨trivial, disciplined_of_works (i := 1) rfl rfl ⟨rfl, rfl, rfl⟩ (by decide),
      _, _, rfl, ?_⟩
    refine ⟨trivial, disciplined_of_reclaim rfl rfl List.mem_cons_self (by decide), _, _, rfl, ?_⟩
    refine ⟨trivial, hnone rfl rfl, _, _, rfl, ?_⟩
    refine ⟨List.mem_cons_of_mem _ List.mem_cons_self,
      disciplined_of_works (i := 0) rfl rfl ⟨rfl, rfl, rfl⟩ (by decide), _, rfl, ?_⟩
    exact ⟨List.mem_cons_self, _, rfl, List.mem_cons_self, _, rfl⟩
  obtain ⟨first, m, hfirst, -, hbefore, hd, hcaller, m', hwait, hleads'⟩ := hleads.exists_history
  obtain ⟨between, m₁, hbetween, -, hafter, hcan, hd', m₂, hscan, hcan₂, m₃, hstack, hcan₃, m₄,
    hspace⟩ := hleads'.exists_history
  have hfree : m₂.Disciplined (.answer ⟨some 1, .freeingStack (.wait 0) 2 ⟨1⟩ (some ⟨1⟩)⟩ () 0) :=
    (considerate_of_none rfl rfl).disciplined
  have hfree' : m₃.Disciplined (.answer ⟨some 1, .freeingSpace (.wait 0) 2 ⟨1⟩⟩ () 0) :=
    (considerate_of_none rfl rfl).disciplined
  have hstart := Traced.start hfirst hbefore hd hwait
  have hreap := (hstart.trans hbetween hafter).answer (task?_of_waiting hcaller) hcan hd' hscan
  have hend := (hreap.answer rfl hcan₂ hfree hstack).answer rfl hcan₃ hfree' hspace
  obtain ⟨hwaits, -⟩ := collected_of_history hcreate hend.history hend.allowed
  obtain ⟨hwaits, hwaited⟩ := hwaits _ _ _ _ hend.strand hend.sublist
  exact ⟨t, _, _, _, m₄, hcreate, hend.history, hend.strand, hend.sublist, rfl, hwaits,
    hwaited _ rfl⟩

end Machine

end FeedbackQueue
