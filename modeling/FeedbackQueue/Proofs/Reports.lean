import FeedbackQueue.Listing.Summary
import FeedbackQueue.Proofs.Lookup

/-!
# Reports

What a sound table reports of its processes, as plain functions of the records.  A report reads the
record of a parent, so all parents have to be slots of the table; then no report faults.

## Main definitions

* `Table.reportedParent`, `Table.summarize` : the parent pid and the summary of a process.
* `Table.Closed` : all parents are slots of the table.

## Main statements

* `Closed.snapshot_eq_ok`, `Closed.lookup_eq_ok`, `Closed.currentParentPid?_eq_ok` : the reports.
-/

namespace FeedbackQueue

namespace Table

variable {P : Params} {t : Table P} {p : Process} {now : Nat}

/-- The pid that is reported as that of the parent. -/
def reportedParent (t : Table P) (p : Process) : Pid :=
  match p.parent with
  | some i => (t.record i).pid
  | none => p.pid

/-- The summary of a process. -/
def summarize (t : Table P) (now : Nat) (p : Process) : Summary where
  pid := p.pid
  parentPid := t.reportedParent p
  uid := p.uid
  gid := p.gid
  priority := p.priority
  budget := p.budget
  stage := p.stage
  elapsed := now - p.startedAt
  cpuTicks := p.cpuTicks
  size := p.size
  name := p.name

/-- All parents are slots of the table. -/
def Closed (t : Table P) : Prop := ∀ i j, (t.record i).parent = some j → j < P.capacity

theorem parentPid_eq_ok (h : ∀ j, p.parent = some j → j < P.capacity) :
    t.parentPid p = .ok (t.reportedParent p) := by
  unfold parentPid reportedParent
  cases hp : p.parent with
  | none => rfl
  | some j =>
    simp only [process_of_lt (h j hp)]
    rfl

theorem summary_eq_ok (h : ∀ j, p.parent = some j → j < P.capacity) :
    t.summary now p = .ok (t.summarize now p) := by
  unfold summary
  rw [parentPid_eq_ok h]
  rfl

theorem mem_procs_iff : p ∈ t.procs.toList ↔ ∃ i, i < P.capacity ∧ t.record i = p := by
  rw [List.mem_iff_getElem?]
  constructor
  · rintro ⟨i, hi⟩
    rw [Vector.getElem?_toList] at hi
    obtain ⟨hlt, rfl⟩ := Vector.getElem?_eq_some_iff.1 hi
    exact ⟨i, hlt, (procs_getElem hlt).symm⟩
  · rintro ⟨i, hi, rfl⟩
    exact ⟨i, by rw [Vector.getElem?_toList, procs_getElem?_of_lt hi]⟩

/-- A snapshot shows the processes that have started. -/
theorem Closed.snapshot_eq_ok (h : t.Closed) (limit : Nat) : t.snapshot now limit =
    .ok (((t.procs.toList.filter fun p => p.stage ≠ .unused ∧ p.stage ≠ .embryo).take
      (min limit snapshotLimit)).map (t.summarize now)) := by
  refine mapM_eq_ok fun p hp => ?_
  obtain ⟨i, -, rfl⟩ := mem_procs_iff.1 (List.mem_filter.1 (List.mem_of_mem_take hp)).1
  exact summary_eq_ok (h i)

/-- The summary of a slot that a look-up finds. -/
theorem Closed.lookup_eq_ok (h : t.Closed) (hs : t.Sound) (now : Nat) (pid : Pid) :
    t.lookup now pid = .ok none ∨ ∃ i, (t.record i).stage ≠ .unused ∧ (t.record i).pid = pid ∧
      t.lookup now pid = .ok (some (t.summarize now (t.record i))) := by
  unfold lookup
  have hfind := hs.find_eq_ok pid searched
  cases hslot : (if pid = nobody then none else
      searched.findSome? fun s => (t.members s).find? fun i => (t.record i).pid = pid) with
  | none =>
    rw [hslot] at hfind
    rw [hfind]
    exact .inl rfl
  | some i =>
    rw [hslot] at hfind
    obtain ⟨-, hi, hpid, hstage⟩ := hs.of_find_eq_some hfind
    refine .inr ⟨i, ?_, hpid, ?_⟩
    · intro hunused
      rw [hunused] at hstage
      simp [searched] at hstage
    · rw [hfind]
      change (t.process i >>= _) = _
      rw [process_of_lt hi]
      change (t.summary now (t.record i) >>= _) = _
      rw [summary_eq_ok (h i)]
      rfl

theorem Closed.currentParentPid?_eq_ok (h : t.Closed) (hs : t.Sound) (cpu : Cpu) :
    t.currentParentPid? cpu =
      .ok ((t.occupant? cpu).map fun i => t.reportedParent (t.record i)) := by
  unfold currentParentPid?
  cases hcpu : t.occupant? cpu with
  | none => rfl
  | some i =>
    change (some <$> (t.process i >>= t.parentPid)) = _
    rw [process_of_lt (hs.valid.marker_lt cpu i hcpu)]
    change (some <$> t.parentPid (t.record i)) = _
    rw [parentPid_eq_ok (h i)]
    rfl

end Table

end FeedbackQueue
