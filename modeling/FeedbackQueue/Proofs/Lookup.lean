import FeedbackQueue.Proofs.Audit

/-!
# Looking up slots

On a sound table the slots of a stage are exactly the slots whose record has that stage, and the
operations that only read (`find`, `occupant`, …) come to the value that a scan of the records
gives.

## Main statements

* `Sound.mem_members_iff` : the slots of a stage.
* `Sound.find_eq_ok` : a look-up does not fault.
* `Orderly.yields_settle` : a table in order passes its audit.
* `Orderly.yields_revise`, `Orderly.yields_move` : changes of one slot of a table in order.
-/

namespace FeedbackQueue

namespace View

/-- The slots of a stage in order; runnable slots from the highest level down. -/
def members (v : View) (P : Params) : Stage → List Slot
  | .runnable =>
    (List.range (P.maxPriority + 1)).reverse.flatMap fun level => v.queue (.ready level)
  | s => v.queue (.stage s)

theorem members_of_ne {v : View} {P : Params} {s : Stage} (h : s ≠ .runnable) :
    v.members P s = v.queue (.stage s) := by
  cases s <;> first | rfl | exact absurd rfl h

theorem Valid.mem_members_iff {v : View} {P : Params} (h : v.Valid P none) {s : Stage} {i : Slot} :
    i ∈ v.members P s ↔ i < P.capacity ∧ (v.record i).stage = s := by
  by_cases hs : s = .runnable
  · subst hs
    simp only [members, List.mem_flatMap, List.mem_reverse, List.mem_range, h.mem_iff,
      Process.home_eq_ready_iff]
    constructor
    · rintro ⟨level, -, hi, ⟨hstage, -⟩, -⟩
      exact ⟨hi, hstage⟩
    · rintro ⟨hi, hstage⟩
      exact ⟨_, Nat.lt_succ_of_le (h.priority_le i), hi, ⟨hstage, rfl⟩, nofun⟩
  · rw [members_of_ne hs, h.mem_iff, Process.home_eq_stage_iff hs]
    simp

end View

namespace Table

variable {P : Params} {t : Table P} {i : Slot} {cpu : Cpu}

theorem members_eq (s : Stage) : t.members s = t.view.members P s := by
  by_cases hs : s = .runnable
  · subst hs
    have hready : t.ready.toList = (List.range (P.maxPriority + 1)).map fun level =>
        t.ready[level]?.getD {} := by
      refine List.ext_getElem (by simp) fun level h₁ h₂ => ?_
      have hlevel : level < P.maxPriority + 1 := by simpa using h₁
      simp [hlevel]
    have hwalk : ∀ level, (t.ready[level]?.getD {}).walk t.links = t.queue (.ready level) := by
      intro level
      rw [queue, show t.chain? (.ready level) = t.ready[level]? from rfl]
      cases t.ready[level]? with
      | none => exact Chain.holds_empty.walk_eq
      | some c => rfl
    unfold members View.members
    rw [hready, ← List.map_reverse, List.flatMap_map]
    simp [hwalk]
  · cases s <;> first | rfl | exact absurd rfl hs

theorem Sound.mem_members_iff (h : t.Sound) {s : Stage} :
    i ∈ t.members s ↔ i < P.capacity ∧ (t.record i).stage = s := by
  rw [members_eq, h.valid.mem_members_iff, view_record]

/-- The slots of a stage that has one chain. -/
theorem members_of_ne {s : Stage} (hs : s ≠ .runnable) : t.members s = t.queue (.stage s) := by
  rw [members_eq, View.members_of_ne hs, view_queue]

theorem Sound.mem_members_iff_of_ne (h : t.Sound) {s : Stage} (hs : s ≠ .unused) :
    i ∈ t.members s ↔ (t.record i).stage = s := by
  rw [h.mem_members_iff, and_iff_right_iff_imp]
  rintro rfl
  exact lt_of_stage_ne hs

theorem Sound.nodup_members (h : t.Sound) {s : Stage} (hs : s ≠ .runnable) :
    (t.members s).Nodup := by
  rw [members_of_ne hs]
  exact h.nodup_queue _

/-- The first slot with a pid over the given stages, by the records. -/
theorem Sound.find_eq_ok (h : t.Sound) (pid : Pid) (stages : List Stage) :
    t.find pid stages = .ok (if pid = nobody then none else
      stages.findSome? fun s => (t.members s).find? fun i => (t.record i).pid = pid) := by
  unfold find
  split
  · rfl
  · refine findSomeM?_eq_ok fun s _ => findM?_eq_ok fun i hi => ?_
    rw [process_of_lt (h.mem_members_iff.1 hi).1]
    rfl

/-- A slot that is found has the pid and one of the stages. -/
theorem Sound.of_find_eq_some (h : t.Sound) {pid : Pid} {stages : List Stage}
    (e : t.find pid stages = .ok (some i)) :
    pid ≠ nobody ∧ i < P.capacity ∧ (t.record i).pid = pid ∧ (t.record i).stage ∈ stages := by
  rw [h.find_eq_ok, Except.ok.injEq] at e
  split at e
  · cases e
  · obtain ⟨s, hs, hfind⟩ := List.exists_of_findSome?_eq_some e
    obtain ⟨hi, hstage⟩ := h.mem_members_iff.1 (List.mem_of_find?_eq_some hfind)
    have hpid := List.find?_some hfind
    exact ⟨‹_›, hi, by simpa using hpid, by rwa [hstage]⟩

/-- Reading the slot on a CPU. -/
theorem yields_occupant : Yields (∃ i, t.occupant? cpu = some i) (t.occupant cpu) fun i =>
    t.occupant? cpu = some i := by
  unfold occupant
  split
  · exact .ok ‹_›
  · refine .error ?_ rfl
    rintro ⟨i, hi⟩
    simp_all

/-- Reading the record of the process on a CPU. -/
theorem yields_current : Yields (∃ i, t.occupant? cpu = some i ∧ i < P.capacity) (t.current cpu)
    fun p => ∃ i, t.occupant? cpu = some i ∧ p = t.record i := by
  unfold current
  refine (yields_occupant.restrict fun ⟨i, hi, _⟩ => ⟨i, hi⟩).bind fun i hi => ?_
  refine yields_process.mono ?_ fun p hp => ⟨i, hi, hp.2⟩
  rintro ⟨j, hj, hlt⟩
  cases hi.symm.trans hj
  exact hlt

/-- Reading the slot on a CPU, before further steps. -/
theorem yields_occupant_then {α : Type} {k : Slot → Except Fault α} {R : α → Prop} {G : Slot → Prop}
    (hk : ∀ i, t.occupant? cpu = some i → Yields (G i) (k i) R) :
    Yields (∃ i, t.occupant? cpu = some i ∧ G i) (t.occupant cpu >>= k) R := by
  refine (yields_occupant.restrict fun ⟨i, hi, _⟩ => ⟨i, hi⟩).bind fun i hi => ?_
  refine (hk i hi).restrict ?_
  rintro ⟨j, hj, hg⟩
  rw [hi] at hj
  cases hj
  exact hg

/-! ### Audits -/

/-- A sound table in which running slots are on CPUs, if it is audited. -/
structure Orderly (t : Table P) : Prop where
  sound : t.Sound
  scheduled : P.audited = true → t.view.Scheduled

/-- A change after which no other slot is running. -/
theorem Orderly.of_running {t' : Table P} (h : t.Orderly) (h' : t'.Sound)
    (hrunning : ∀ i, (t'.record i).stage = .running → (t.record i).stage = .running)
    (hmarker : t'.occupant? = t.occupant?) : t'.Orderly where
  sound := h'
  scheduled ha i hi := by
    rw [view_marker, hmarker]
    exact h.scheduled ha i (hrunning i hi)

/-- A change of one record that does not make it running. -/
theorem Orderly.of_update {t' : Table P} {p : Process} (h : t.Orderly) (h' : t'.Sound)
    (hrecord : t'.record = Function.update t.record i p)
    (hp : p.stage = .running → (t.record i).stage = .running)
    (hmarker : t'.occupant? = t.occupant?) : t'.Orderly := by
  refine h.of_running h' (fun j hj => ?_) hmarker
  rw [hrecord, Function.update_apply] at hj
  split at hj
  · subst j
    exact hp hj
  · exact hj

theorem settle_eq_ok {t' : Table P} (e : t.settle = .ok t') : t' = t := by
  unfold settle audited at e
  split at e
  · split at e <;> cases e
    rfl
  · cases e
    rfl

theorem Orderly.settle_eq (h : t.Orderly) : t.settle = .ok t := by
  unfold settle audited
  split
  · rw [h.sound.audit_eq_ok_iff.2 (h.scheduled ‹_›)]
  · rfl

/-- A table in order passes its audit. -/
theorem Orderly.yields_settle {g : Prop} (h : t.Orderly) : Yields g t.settle (· = t) := by
  rw [h.settle_eq]
  exact .ok rfl

/-! ### Changes of one slot -/

/-- A change of a record that keeps stage and priority. -/
theorem Orderly.yields_revise (h : t.Orderly) {f : Process → Process}
    (hstage : ∀ p, (f p).stage = p.stage) (hpriority : ∀ p, (f p).priority = p.priority) :
    Yields (i < P.capacity) (t.revise i f) fun t' =>
      t'.Orderly ∧ t'.view = t.view.revise i f := by
  refine (h.sound.yields_revise ?_ ?_).weaken fun t' ⟨_, h', hview⟩ => ⟨?_, hview⟩
  · rw [hpriority]
    exact h.sound.valid.priority_le i
  · exact fun _ => Process.home_congr (hstage _) fun _ => hpriority _
  · refine h.of_update h' (congrArg View.record hview) (fun hs => ?_) (congrArg View.marker hview)
    rw [hstage] at hs
    exact hs

/-- A move to a stage other than running. -/
theorem Orderly.yields_move (h : t.Orderly) {source target : Stage} (hne : target ≠ .running) :
    Yields (i < P.capacity ∧ (t.record i).stage = source) (t.move i source target) fun t' =>
      t'.Orderly ∧ (t.record i).stage = source ∧
        t'.view = t.view.shift i fun p => { p with stage := target } := by
  refine h.sound.yields_move.weaken fun t' ⟨hg, h', hview⟩ => ⟨?_, hg.2, hview⟩
  exact h.of_update h' (congrArg View.record hview) (fun hs => absurd hs hne)
    (congrArg View.marker hview)

end Table

end FeedbackQueue
