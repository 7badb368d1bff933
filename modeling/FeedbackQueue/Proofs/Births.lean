import FeedbackQueue.Proofs.Histories

/-!
# Births

A slot and a pid are taken at once; stack, address space and files come later, each by a call of the
surrounding machine, and whatever happens in between leaves the embryo to the request that builds
it.  So a request to allocate or to fork ends as its caller expects, with one exception: a pid is
taken by a sum that has to fit in a word, a refused allocation does not give its pid back, and once
the pids have run out the next allocation faults.

## Main definitions

* `Machine.Nursed` : requests that build a process have an embryo each.
* `Suspension.forks`, `Suspension.left` : the calls of a fork.
* `Machine.Births` : how requests to allocate and to fork begin, go on and end.

## Main statements

* `Machine.births_of_history` : what they do in every run.
* `Machine.exists_overflow` : refused allocations lead to a fault.
-/

namespace FeedbackQueue

namespace Event

variable {acts : List Act} {p : Progress} {now : Nat} {clock : Clock} {i j : Slot} {cpu : Cpu}

/-! ### Embryos of requests -/

theorem slot_of_abandonFork (h : Script.abandonFork j acts p) : p.slot? = none := by
  rcases h with ⟨stack, -, rfl⟩ | ⟨-, rfl⟩ <;> rfl

theorem slot_of_duplicateFiles {plan : Blueprint} {space : AddressSpace}
    {copies files : List FileHandle} (h : Script.duplicateFiles j plan space copies files acts p)
    (hi : p.slot? = some i) : j = i ∧ p.launches j plan = none := by
  rcases Script.cases_duplicateFiles h with
    ⟨file, rest, -, rfl⟩ | ⟨dir, -, rfl⟩ | ⟨pid, -, rfl⟩ <;> cases hi
  · exact ⟨rfl, rfl⟩
  · exact ⟨rfl, rfl⟩

theorem slot_of_closeFiles {last : Resumption} {files : List FileHandle}
    (h : Script.closeFiles cpu last now files acts p) : p.slot? = none := by
  cases files with
  | cons file rest =>
    obtain ⟨-, rfl⟩ := h
    rfl
  | nil =>
    obtain ⟨i, -, rfl⟩ := h
    rfl

theorem slot_of_releaseSpace {reaper : Reaper} {pid : Pid} {space : Option AddressSpace}
    (h : Script.releaseSpace reaper pid space acts p) : p.slot? = none := by
  cases space <;> obtain ⟨-, rfl⟩ := h <;> rfl

theorem slot_of_release {reaper : Reaper} {remains : Remains}
    (h : Script.release reaper remains acts p) : p.slot? = none := by
  rcases Script.cases_release h with ⟨_, _, -, rfl⟩ | ⟨_, -, rfl⟩ | ⟨-, rfl⟩ <;> rfl

theorem slot_of_waitRound (h : Script.waitRound cpu now acts p) : p.slot? = none := by
  rcases h with ⟨-, rfl⟩ | ⟨me, i, remains, rest, -, h⟩ | ⟨me, -, rfl⟩
  · rfl
  · exact slot_of_release h
  · rfl

/-- What a light script leaves waits with no embryo. -/
theorem slot_of_light {S : Script} (hS : S.Light) (h : S acts p) : p.slot? = none :=
  Progress.slot_of_isLight (hS acts p h).2

/-- A request goes on with an embryo that it has just taken. -/
theorem slot_of_start {request : Request} (h : Script.start clock request acts p)
    (hi : p.slot? = some i) : request.deed? clock.now p = some (.allocate i clock.now) := by
  have habsurd : p.slot? = none →
      request.deed? clock.now p = some (.allocate i clock.now) := fun hnone => by
    rw [hnone] at hi
    cases hi
  have hallocate : ∀ {purpose : Purpose} {acts : List Act},
      Script.allocateFor purpose clock.now acts p →
        p.allocates clock.now = some (.allocate i clock.now) := by
    rintro purpose acts (⟨-, rfl⟩ | ⟨j, -, rfl⟩)
    · cases hi
    · cases hi
      rfl
  cases request with
  | allocate | boot => exact hallocate h
  | fork =>
    obtain ⟨plan, rest, -, h⟩ := h
    exact hallocate h
  | exit | terminate =>
    obtain ⟨j, files, rest, -, h⟩ := h
    exact habsurd (slot_of_closeFiles h)
  | wait => exact habsurd (slot_of_waitRound h)
  | poll =>
    rcases h with ⟨result, -, -, rfl⟩ | ⟨me, j, remains, rest, -, h⟩
    · cases hi
    · exact habsurd (slot_of_release h)
  | sleep | yield | switch | signal =>
    exact habsurd (slot_of_light (.any fun _ => .single rfl rfl) h)
  | sleepFor => exact habsurd (slot_of_light .sleepRound h)
  | pass | serve => exact habsurd (slot_of_light (.only rfl) h)
  | dispatch =>
    exact habsurd (slot_of_light (.either (.only rfl) (.any fun _ => .single rfl rfl)) h)
  | kill | setPriority | setUid | setGid =>
    exact habsurd (slot_of_light (.refusable fun _ => rfl) h)
  | reclaim | tick | rouse | sweep | sweepIfDue => exact habsurd (slot_of_light (.single rfl rfl) h)

/-- An answer that leaves a request with an embryo leaves it that of the request, and does no
deed. -/
theorem slot_of_resume {s : Suspension} {reply : s.call.Answer}
    (h : Script.resume clock s reply acts p) (hi : p.slot? = some i) :
    s.slot? = some i ∧ s.deed? clock.now reply p = none := by
  have habsurd : p.slot? = none →
      s.slot? = some i ∧ s.deed? clock.now reply p = none := fun hnone => by
    rw [hnone] at hi
    cases hi
  cases s with
  | allocating j purpose =>
    cases reply with
    | none =>
      obtain ⟨-, rfl⟩ := h
      cases hi
    | some stack =>
      obtain ⟨rest, -, h⟩ := h
      cases purpose with
      | bare =>
        obtain ⟨-, rfl⟩ := h
        cases hi
      | root name image =>
        obtain ⟨-, rfl⟩ := h
        cases hi
        exact ⟨rfl, rfl⟩
      | child plan =>
        rcases Script.cases_furnish_child h with ⟨source, hspace, -, rfl⟩ | ⟨-, h⟩
        · cases hi
          refine ⟨rfl, ?_⟩
          simp [Suspension.deed?, hspace]
        · exact habsurd (slot_of_abandonFork h)
  | mapping j name image =>
    cases reply with
    | none => cases h
    | some space =>
      obtain ⟨pid, -, rfl⟩ := h
      cases hi
  | copying j plan source =>
    cases reply with
    | none => exact habsurd (slot_of_abandonFork h)
    | some space =>
      obtain ⟨rfl, hdeed⟩ := slot_of_duplicateFiles h hi
      exact ⟨rfl, hdeed⟩
  | duplicating j plan space copies file rest =>
    obtain ⟨rfl, hdeed⟩ := slot_of_duplicateFiles h hi
    exact ⟨rfl, hdeed⟩
  | duplicatingCwd =>
    obtain ⟨pid, -, rfl⟩ := h
    cases hi
  | undoing | idling => exact habsurd (slot_of_light (.only rfl) h)
  | freeingSpace =>
    obtain ⟨-, rfl⟩ := h
    cases hi
  | closing => exact habsurd (slot_of_closeFiles h)
  | switching _ resumption =>
    cases resumption with
    | exit | proceed => exact habsurd (slot_of_light (.only rfl) h)
    | terminate => cases h
    | wait => exact habsurd (slot_of_waitRound h)
    | sleepFor => exact habsurd (slot_of_light .sleepRound h)
  | freeingStack => exact habsurd (slot_of_releaseSpace h)
  | enabling => exact habsurd (slot_of_light .dispatchRound h)
  | running cpu handoff forever =>
    exact habsurd (slot_of_light (.single rfl (by cases forever <;> rfl)) h)

end Event

namespace Machine

variable {P : Params} {m m₁ : Machine P} {e : Event} {p : Progress} {i : Slot}
  {steps : List (Step P)}

/-- Every request that builds a process has an embryo of its own. -/
structure Nursed (m : Machine P) : Prop where
  embryo : ∀ task ∈ m.tasks, ∀ i, task.slot? = some i → (m.table.record i).stage = .embryo
  apart : (m.tasks.filterMap Task.slot?).Nodup

/-- The embryo with which a request goes on is its own, or has been a free slot. -/
theorem Nursed.embryo_after (h : m.Nursed) (hm : m.table.Orderly) (hcan : m.CanHappen e)
    (hperform : m.perform e = .ok (p, m₁)) (hi : p.slot? = some i) :
    (m₁.table.record i).stage = .embryo ∧ i ∉ (m.others e).filterMap Task.slot? := by
  obtain ⟨-, -, acts, -, hscript⟩ := of_perform_eq_ok hm hperform
  have hdoes := does_of_perform_eq_ok hm hperform
  cases e with
  | start request clock =>
    have hdeed : (Event.start request clock).deed? p = some (.allocate i clock.now) :=
      Event.slot_of_start hscript hi
    cases hdoes with
    | steady hnone => cases hnone.symm.trans hdeed
    | @deed d u a hd ha _ hu he hw =>
      cases hd.symm.trans hdeed
      cases a <;> cases ha
      have hphase := (hw.record i).phase
      rw [Act.apply, View.conceive_record, Function.update_self] at hphase
      refine ⟨Stage.phase_eq_unborn.1 hphase, fun hmem => ?_⟩
      obtain ⟨other, hother, hslot⟩ := List.mem_filterMap.1 hmem
      have hfree := (hu.record i).phase
      rw [he.2, Table.view_record, h.embryo other hother i hslot] at hfree
      cases hfree
  | answer task reply clock =>
    obtain ⟨hslot, hdeed⟩ := Event.slot_of_resume hscript hi
    refine ⟨?_, fun hmem => ?_⟩
    · cases hdoes with
      | steady _ hsteady =>
        have hphase := (hsteady.record i).phase
        rw [Table.view_record, Table.view_record, h.embryo task hcan i hslot] at hphase
        exact Stage.phase_eq_unborn.1 hphase
      | deed hd => cases hd.symm.trans hdeed
    · obtain ⟨other, hother, hi'⟩ := List.mem_filterMap.1 hmem
      exact slot_ne h.apart hcan hother hi' hslot

/-- Whatever happens, the embryos of other requests stay as they are. -/
theorem Nursed.embryo_of_others {acts : List Act} {w : View} {other : Task} (h : m.Nursed)
    (hcan : m.CanHappen e) (hfollows : m.table.view.Follows P acts w) (hscript : e.script acts p)
    (hother : other ∈ m.others e) (hi : other.slot? = some i) :
    (w.record i).stage = .embryo ∧ (w.record i).stack = (m.table.record i).stack := by
  refine hfollows.preserves
    (I := fun w => (w.record i).stage = .embryo ∧ (w.record i).stack = (m.table.record i).stack)
    ⟨h.embryo other (mem_of_mem_others hother) i hi, rfl⟩ fun v a ha he hv => ?_
  obtain ⟨hstage, hstack⟩ := Act.embryo_apply (P := P) he hv.1 fun hbuilds =>
    slot_ne h.apart hcan hother hi (Act.slot_of_builds (Event.owns_of_script hscript a ha) hbuilds)
  exact ⟨hstage, hstack.trans hv.2⟩

/-- Whatever happens, embryos are left to the requests that build them. -/
theorem Nursed.of_perform_eq_ok (h : m.Nursed) (hm : m.table.Orderly) (hcan : m.CanHappen e)
    (hperform : m.perform e = .ok (p, m₁)) : m₁.Nursed := by
  obtain ⟨-, hafter, acts, hfollows, hscript⟩ := Machine.of_perform_eq_ok hm hperform
  have hold : ∀ other ∈ m.others e, ∀ i, other.slot? = some i →
      (m₁.table.record i).stage = .embryo := fun other hother i hi =>
    (h.embryo_of_others hcan hfollows hscript hother hi).1
  have hnew := fun i => h.embryo_after (i := i) hm hcan hperform
  generalize m₁.table = t at *
  subst hafter
  refine ⟨fun task htask i hi => ?_, nodup_slots_after h.apart fun i hi => (hnew i hi).2⟩
  rcases mem_tasks_after htask with htask | ⟨s, rfl, rfl⟩
  · exact hold task htask i hi
  · exact (hnew i hi).1

theorem Nursed.of_grants {files : Multiset FileHandle} {t : Table P} (h : m.Nursed)
    (hm : m.table.Orderly) (hgrants : m.Grants i files t) : Nursed { m with table := t } := by
  refine ⟨fun task htask j hj => ?_, h.apart⟩
  have hphase := ((hgrants.steady hm).record j).phase
  rw [Table.view_record, Table.view_record, h.embryo task htask j hj] at hphase
  exact Stage.phase_eq_unborn.1 hphase

theorem History.nursed (h : m.History steps m₁) (hm : m.table.Orderly) (hnursed : m.Nursed) :
    m₁.Nursed := by
  induction h with
  | nil => exact hnursed
  | event hrun hcan hperform ih => exact ih.of_perform_eq_ok (hrun.orderly hm) hcan hperform
  | grant hrun hgrants ih => exact ih.of_grants (hrun.orderly hm) hgrants

end Machine

/-! ### Forks -/

/-- Whether a request goes on with a fork. -/
def Suspension.forks : Suspension → Bool
  | allocating _ (.child _) | copying _ _ _ | duplicating _ _ _ _ _ _ | duplicatingCwd _ _ _ _ _
  | undoing _ => true
  | _ => false

/-- How many calls a fork makes at most after its open one. -/
def Suspension.left : Suspension → Nat
  | allocating _ (.child plan) => plan.files.length + 2
  | copying _ plan _ => plan.files.length + 1
  | duplicating _ _ _ _ _ rest => rest.length + 1
  | _ => 0

/-- A fork has ended with the pid of a child or for want of memory, or has fewer than `n` calls
left. -/
def Progress.ForksWithin (n : Nat) : Progress → Prop
  | returned (.created (.ok _)) | returned (.created (.error .resourceExhausted)) => True
  | waiting s => s.forks = true ∧ s.left < n
  | _ => False

namespace Table

variable {P : Params} {t : Table P} {i : Slot} {now n : Nat} {plan : Blueprint}
  {space : AddressSpace} {copies files : List FileHandle}

/-- A stretch comes to an end of its fork, or to its next call. -/
def Forks (n : Nat) (r : Stretch P) : Prop := Yields True r fun (p, _) => p.ForksWithin n

theorem Orderly.forks_abandonFork (h : t.Orderly) (hi : (t.record i).stage = .embryo)
    (hn : 0 < n) : Forks n (t.abandonFork i) := by
  unfold abandonFork
  refine (h.yields_abandon.restrict fun _ => ⟨lt_of_stage_eq hi, hi⟩).bind ?_
  rintro ⟨stack, t'⟩ -
  cases stack with
  | some stack => exact .ok ⟨rfl, hn⟩
  | none => exact .ok trivial

theorem Orderly.forks_finishFork (h : t.Orderly) (hi : (t.record i).stage = .embryo)
    {cwd : Option FileHandle} : Forks n (t.finishFork i plan space files cwd) := by
  unfold finishFork
  exact (h.yields_launch.restrict fun _ => ⟨lt_of_stage_eq hi, hi⟩).bind fun _ _ => .ok trivial

theorem Orderly.forks_duplicateFiles (h : t.Orderly) (hi : (t.record i).stage = .embryo)
    (hn : files.length < n) : Forks n (t.duplicateFiles i plan space copies files) := by
  cases files with
  | cons file rest => exact .ok ⟨rfl, hn⟩
  | nil =>
    unfold duplicateFiles
    cases plan.cwd with
    | some dir => exact .ok ⟨rfl, hn⟩
    | none => exact h.forks_finishFork hi

/-- A fork that waits goes on with every answer. -/
theorem Orderly.forks_resume (h : t.Orderly) {s : Suspension} (hforks : s.forks = true)
    (hi : ∀ i, s.slot? = some i → (t.record i).stage = .embryo) (clock : Clock)
    (reply : s.call.Answer) : Forks s.left (s.resume clock t reply) := by
  cases s with
  | allocating i purpose =>
    have hembryo := hi i rfl
    cases purpose with
    | bare | root => cases hforks
    | child plan =>
      cases reply with
      | none =>
        refine (h.yields_discard.restrict fun _ => ⟨lt_of_stage_eq hembryo, hembryo⟩).bind ?_
        exact fun _ _ => .ok trivial
      | some stack =>
        refine (h.yields_giveStack.restrict fun _ => lt_of_stage_eq hembryo).bind ?_
        rintro t' ⟨h', hview⟩
        have hembryo' : (t'.record i).stage = .embryo := by
          rw [record_of_revise hview]
          exact hembryo
        unfold furnish
        dsimp only
        cases plan.space with
        | some source => exact .ok ⟨rfl, Nat.lt_succ_self _⟩
        | none => exact h'.forks_abandonFork hembryo' (Nat.succ_pos _)
  | copying i plan source =>
    cases reply with
    | some space => exact h.forks_duplicateFiles (hi i rfl) (Nat.lt_succ_self _)
    | none => exact h.forks_abandonFork (hi i rfl) (Nat.succ_pos _)
  | duplicating i plan space copies file rest =>
    exact h.forks_duplicateFiles (hi i rfl) (Nat.lt_succ_self _)
  | duplicatingCwd i plan space copies dir => exact h.forks_finishFork (hi i rfl)
  | undoing => exact .ok trivial
  | _ => cases hforks

/-! ### Pids -/

/-- No slot is free. -/
def Full (t : Table P) : Prop := ∀ i < P.capacity, (t.record i).stage ≠ .unused

theorem Sound.full_iff (h : t.Sound) : t.Full ↔ t.queue (.stage .unused) = [] := by
  have hmem := fun i => h.valid.mem_iff (.stage .unused) i
  rw [List.eq_nil_iff_forall_not_mem]
  constructor
  · intro hfull i hi
    obtain ⟨hlt, hhome, -⟩ := (hmem i).1 hi
    exact hfull i hlt ((Process.home_eq_stage_iff (by simp)).1 hhome)
  · intro hnone i hlt hstage
    exact hnone i ((hmem i).2 ⟨hlt, (Process.home_eq_stage_iff (by simp)).2 hstage, nofun⟩)

theorem Orderly.conceive_eq_none (h : t.Orderly) (hfull : t.Full) : t.conceive now = .ok none := by
  have hhead : t.unused.head = none := by
    rw [(h.sound.threaded (.stage .unused) t.unused rfl).head_eq, h.sound.full_iff.1 hfull]
    rfl
  unfold conceive
  rw [hhead]
  rfl

/-- A free slot is taken with the next pid, as long as there is one after it. -/
theorem Orderly.exists_conceive (h : t.Orderly) (hfree : ¬ t.Full)
    (hpids : t.nextPid + 1 < word32) (now : Nat) :
    ∃ i t', t.conceive now = .ok (some (i, t')) ∧ t'.Orderly ∧
      (t.record i).stage = .unused ∧ t'.view = t.view.conceive P i now := by
  have hconceive : Yields _ (t.conceive now) _ := h.yields_conceive
  obtain ⟨result, e, hresult⟩ := hconceive.exists_ok hpids
  rcases result with _ | ⟨i, t'⟩
  · exact absurd (h.sound.full_iff.2 hresult) hfree
  · exact ⟨i, t', e, hresult.1, hresult.2.2.1, hresult.2.2.2⟩

theorem Orderly.conceive_eq_overflow (h : t.Orderly) (hfree : ¬ t.Full)
    (hpids : word32 ≤ t.nextPid + 1) : t.conceive now = .error .overflow := by
  have hc := h.sound.threaded (.stage .unused) t.unused rfl
  obtain ⟨i, rest, hqueue⟩ := List.exists_cons_of_ne_nil (mt h.sound.full_iff.2 hfree)
  obtain ⟨hlt, hhome, -⟩ := (h.sound.valid.mem_iff (.stage .unused) i).1 (by simp [hqueue])
  have hstage := (Process.home_eq_stage_iff (by simp)).1 hhome
  obtain ⟨t₁, e, -, -, hview⟩ := h.sound.yields_unlist.exists_ok ⟨hlt, hstage⟩
  have hnext : t₁.nextPid = t.nextPid := congrArg View.nextPid hview
  have hpid : t₁.takePid = .error .overflow := by
    have hsum : addBelow word32 t.nextPid 1 = .error .overflow := if_neg (Nat.not_lt.2 hpids)
    unfold takePid
    rw [hnext, hsum]
    rfl
  unfold conceive
  rw [hc.head_eq, hqueue]
  change (t.unlist i .unused >>= _) = _
  rw [e]
  change (t₁.takePid >>= _) = _
  rw [hpid]
  rfl

/-- An allocation is refused while no slot is free, and otherwise takes a slot and a pid, unless the
pids have run out. -/
def Allocates (t : Table P) (purpose : Purpose) (r : Stretch P) : Prop :=
  (t.Full → r = t.finish (purpose.refused .outOfProcesses)) ∧
  (¬ t.Full → t.nextPid + 1 < word32 →
    ∃ i, ∃ t' : Table P, r = t'.suspend (.allocating i purpose)) ∧
  (¬ t.Full → word32 ≤ t.nextPid + 1 → r = .error .overflow)

theorem Orderly.allocates_allocateFor (h : t.Orderly) (purpose : Purpose) (now : Nat) :
    t.Allocates purpose (t.allocateFor purpose now) := by
  unfold allocateFor
  refine ⟨fun hfull => ?_, fun hfree hpids => ?_, fun hfree hpids => ?_⟩
  · rw [h.conceive_eq_none hfull]
    rfl
  · obtain ⟨i, t', e, -⟩ := h.exists_conceive hfree hpids now
    rw [e]
    exact ⟨i, t', rfl⟩
  · rw [h.conceive_eq_overflow hfree hpids]
    rfl

end Table

namespace Machine

variable {P : Params} {m : Machine P} {steps : List (Step P)}

/-- How requests to allocate and to fork begin, go on and end. -/
structure Births (m : Machine P) : Prop where
  /-- An allocation begins. -/
  allocate : ∀ clock, m.table.Allocates .bare (m.stretch (.start .allocate clock))
  /-- A fork of the process on a CPU begins. -/
  fork : ∀ cpu i clock, m.table.occupant? cpu = some i →
    ∃ plan, m.table.Allocates (.child plan) (m.stretch (.start (.fork cpu) clock))
  /-- An allocation ends. -/
  allocated : ∀ caller i reply clock, ⟨caller, .allocating i .bare⟩ ∈ m.tasks →
    ∃ t' : Table P, m.stretch (.answer ⟨caller, .allocating i .bare⟩ reply clock) =
      t'.finish (.allocated (if reply.isSome then .ok i else .error .resourceExhausted))
  /-- A fork goes on, and ends. -/
  forked : ∀ task ∈ m.tasks, task.suspension.forks = true → ∀ reply clock,
    ∃ p t', m.stretch (.answer task reply clock) = .ok (p, t') ∧ p.ForksWithin task.suspension.left

theorem Nursed.births (h : m.Nursed) (hm : m.table.Orderly) : m.Births where
  allocate clock := hm.allocates_allocateFor .bare clock.now
  fork cpu i clock hi := by
    obtain ⟨plan, e, -⟩ := (Table.yields_blueprint hm.sound).exists_ok ⟨i, hi⟩
    have hfork : m.stretch (.start (.fork cpu) clock) =
        m.table.allocateFor (.child plan) clock.now := by
      change (m.table.blueprint cpu >>= _) = _
      rw [e]
      rfl
    rw [hfork]
    exact ⟨plan, hm.allocates_allocateFor _ clock.now⟩
  allocated caller i reply clock htask := by
    have hi := h.embryo _ htask i rfl
    have hlt := Table.lt_of_stage_eq hi
    cases reply with
    | none =>
      obtain ⟨t', e, -⟩ := hm.yields_discard.exists_ok ⟨hlt, hi⟩
      refine ⟨t', ?_⟩
      change (m.table.discard i >>= _) = _
      rw [e]
      rfl
    | some stack =>
      have hgive : Yields _ (m.table.giveStack i stack) _ := hm.yields_giveStack
      obtain ⟨t', e, -⟩ := hgive.exists_ok hlt
      refine ⟨t', ?_⟩
      change (m.table.giveStack i stack >>= _) = _
      rw [e]
      rfl
  forked task htask hforks reply clock := by
    obtain ⟨⟨p, t'⟩, e, hp⟩ :=
      (hm.forks_resume hforks (h.embryo task htask) clock reply).exists_ok trivial
    exact ⟨p, t', e, hp⟩

/-- **Allocations and forks fault for want of pids only.**  In every run, however many processes
there have been, an allocation and a fork of the process on a CPU are refused for want of a slot, or
take a slot and a pid; and then they go on with every answer, whatever else has happened, and end
with their slot or child, or for want of memory.  The one exception is an allocation or a fork that
finds a free slot after the last pid, which faults. -/
theorem births_of_history {t : Table P} {start : Nat}
    (hcreate : Table.create P start = .ok (.ok t)) (hrun : History { table := t } steps m) :
    m.Births := by
  have ht := (Table.orderly_of_create hcreate).1
  have hnursed : Nursed { table := t } := ⟨nofun, List.nodup_nil⟩
  exact (hrun.nursed ht hnursed).births (hrun.orderly ht)

theorem births_of_allocating : ∃ (t : Table ⟨1, 0, 1, 1, 1, true⟩) (steps : List (Step _))
    (m : Machine _), Table.create _ 0 = .ok (.ok t) ∧ History { table := t } steps m ∧
      m.tasks = [⟨none, .allocating 0 .bare⟩] ∧ m.Births := by
  obtain ⟨t, steps, m, hcreate, hrun, htasks⟩ : ∃ (t : Table ⟨1, 0, 1, 1, 1, true⟩)
      (steps : List (Step _)) (m : Machine _), Table.create _ 0 = .ok (.ok t) ∧
        History { table := t } steps m ∧ m.tasks = [⟨none, .allocating 0 .bare⟩] :=
    ⟨_, _, _, rfl, History.nil.event (e := .start .allocate 0) trivial rfl, rfl⟩
  exact ⟨t, steps, m, hcreate, hrun, htasks, births_of_history hcreate hrun⟩

/-! ### Out of pids -/

/-- An allocation that is refused a stack gives its slot back, but not its pid. -/
theorem exists_refused (hm : m.table.Orderly) (hfree : ¬ m.table.Full)
    (hpids : m.table.nextPid + 1 < word32) : ∃ (steps : List (Step P)) (m₂ : Machine P),
      m.History steps m₂ ∧ m₂.table.Orderly ∧ ¬ m₂.table.Full ∧
        m₂.table.nextPid = m.table.nextPid + 1 := by
  obtain ⟨i, t₁, e₁, h₁, -, hview₁⟩ := hm.exists_conceive hfree hpids 0
  have hrecord₁ : t₁.record i = (m.table.record i).conceive P m.table.nextPid 0 := by
    rw [← Table.view_record, hview₁, View.conceive_record, Function.update_self]
    rfl
  have hembryo : (t₁.record i).stage = .embryo := by
    rw [hrecord₁]
    rfl
  have hlt := Table.lt_of_stage_eq hembryo
  obtain ⟨t₂, e₂, h₂, -, hview₂⟩ := h₁.yields_discard.exists_ok ⟨hlt, hembryo⟩
  have hunused : (t₂.record i).stage = .unused := by
    rw [← Table.view_record, hview₂, View.discard_record, Function.update_self]
    rfl
  have hallocate : m.stretch (.start .allocate 0) = t₁.suspend (.allocating i .bare) := by
    change (m.table.conceive 0 >>= _) = _
    rw [e₁]
    rfl
  have hrefuse : ∀ m₁ : Machine P, m₁.table = t₁ → m₁.stretch
      (.answer ⟨none, .allocating i .bare⟩ none 0) =
        t₂.finish (.allocated (.error .resourceExhausted)) := by
    rintro m₁ rfl
    change (m₁.table.discard i >>= _) = _
    rw [e₂]
    rfl
  refine ⟨_, _, History.nil.event (e := .start .allocate 0) trivial
    (bind_eq_ok.2 ⟨_, hallocate, rfl⟩) |>.event (e := .answer ⟨none, .allocating i .bare⟩ none 0)
      List.mem_cons_self (bind_eq_ok.2 ⟨_, hrefuse _ rfl, rfl⟩), h₂, fun hfull => ?_, ?_⟩
  · exact hfull i hlt hunused
  · calc t₂.nextPid = t₁.nextPid := congrArg View.nextPid hview₂
      _ = m.table.nextPid + 1 := congrArg View.nextPid hview₁

/-- Any number of refused allocations, as long as there are pids. -/
theorem exists_refused_many (hm : m.table.Orderly) (hfree : ¬ m.table.Full) (k : Nat)
    (hpids : m.table.nextPid + k < word32) : ∃ (steps : List (Step P)) (m₂ : Machine P),
      m.History steps m₂ ∧ m₂.table.Orderly ∧ ¬ m₂.table.Full ∧
        m₂.table.nextPid = m.table.nextPid + k := by
  induction k with
  | zero => exact ⟨[], m, .nil, hm, hfree, rfl⟩
  | succ k ih =>
    obtain ⟨past, m₁, hpast, hm₁, hfree₁, hnext₁⟩ := ih (Nat.lt_of_succ_lt hpids)
    obtain ⟨later, m₂, hlater, hm₂, hfree₂, hnext₂⟩ :=
      exists_refused hm₁ hfree₁ (by rw [hnext₁]; exact hpids)
    refine ⟨past ++ later, m₂, hpast.trans hlater, hm₂, hfree₂, ?_⟩
    rw [hnext₂, hnext₁, Nat.add_assoc]

/-- **Refused allocations use up the pids**, on a table with a free slot; the allocation after the
last pid faults. -/
theorem exists_overflow (hm : m.table.Orderly) (hfree : ¬ m.table.Full)
    (hpids : m.table.nextPid < word32) : ∃ (steps : List (Step P)) (m₂ : Machine P),
      m.History steps m₂ ∧ ¬ m₂.table.Full ∧
        ∀ clock, m₂.perform (.start .allocate clock) = .error .overflow := by
  obtain ⟨steps, m₂, hrun, hm₂, hfree₂, hnext₂⟩ :=
    exists_refused_many hm hfree (word32 - 1 - m.table.nextPid) (by omega)
  refine ⟨steps, m₂, hrun, hfree₂, fun clock => ?_⟩
  have hallocate := (hm₂.allocates_allocateFor .bare clock.now).2.2 hfree₂ (by omega)
  have hstretch : m₂.stretch (.start .allocate clock) = .error .overflow := hallocate
  unfold perform
  rw [hstretch]
  rfl

theorem overflow_of_refused : ∃ (t : Table ⟨1, 0, 1, 1, 1, true⟩) (steps : List (Step _))
    (m : Machine _), Table.create _ 0 = .ok (.ok t) ∧ History { table := t } steps m ∧
      ¬ m.table.Full ∧ m.perform (.start .allocate 0) = .error .overflow := by
  obtain ⟨t, hcreate, hpids⟩ : ∃ t : Table ⟨1, 0, 1, 1, 1, true⟩,
      Table.create _ 0 = .ok (.ok t) ∧ t.nextPid < word32 := ⟨_, rfl, by decide⟩
  obtain ⟨ht, hview⟩ := Table.orderly_of_create hcreate
  have hfree : ¬ t.Full := fun hfull => hfull 0 Nat.one_pos (by
    rw [← Table.view_record, hview]
    rfl)
  obtain ⟨steps, m, hrun, hfree', hoverflow⟩ := exists_overflow (m := { table := t }) ht hfree hpids
  exact ⟨t, steps, m, hcreate, hrun, hfree', hoverflow 0⟩

end Machine

end FeedbackQueue
