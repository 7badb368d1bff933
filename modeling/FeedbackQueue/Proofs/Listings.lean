import FeedbackQueue.Listing.Text
import FeedbackQueue.Proofs.Endings

/-!
# Listings and look-ups

Operations that only read a table use the links of its chains, the parents of its processes and the
slots on its CPUs as indices.  On a table in order all of these are slots, so nothing that only
reads faults.

## Main definitions

* `Table.Confined` : walks of chains do not leave the table.
* `Table.Readable` : nothing that only reads the table faults.

## Main statements

* `Table.readable_of_closed` : a table in order is readable.
-/

namespace FeedbackQueue

/-! ### Texts -/

section Pieces

variable {α β : Type} {pieces : List Piece} {xs : List α} {f : α → Except Fault β}

theorem ends_mapM (h : ∀ x ∈ xs, Ends (f x)) : Ends (xs.mapM f) := by
  induction xs with
  | nil => exact .ok
  | cons x xs ih =>
    rw [List.mapM_cons]
    refine (h x List.mem_cons_self).bind fun _ => ?_
    exact (ih fun y hy => h y (List.mem_cons_of_mem x hy)).bind fun _ => .ok

theorem Written.ends_within (h : ∀ piece ∈ pieces, Ends piece) (room : Nat) :
    Ends (within room pieces) := by
  induction pieces generalizing room with
  | nil => exact .ok
  | cons piece rest ih =>
    refine (h piece List.mem_cons_self).bind fun text => ?_
    split
    · exact (ih (fun q hq => h q (List.mem_cons_of_mem piece hq)) _).bind fun _ => .ok
    · exact .ok

/-- A text is written if all its pieces can be computed. -/
theorem Written.ends_under (h : ∀ piece ∈ pieces, Ends piece) (limit : Option Nat) :
    Ends (under limit pieces) := by
  cases limit with
  | some room => exact ends_within h room
  | none => exact (ends_mapM h).bind fun _ => .ok

theorem ends_of_mem_arrows (h : ∀ piece ∈ pieces, Ends piece) :
    ∀ piece ∈ arrows pieces, Ends piece := by
  cases pieces with
  | nil => exact h
  | cons first rest =>
    refine List.forall_mem_cons.2 ⟨h first List.mem_cons_self, List.forall_mem_map.2 ?_⟩
    exact fun piece hpiece => (h piece (List.mem_cons_of_mem first hpiece)).bind fun _ => .ok

/-- A heading, items with arrows between them, and an end of line. -/
theorem ends_of_mem_line {heading : String} (h : ∀ x ∈ xs, Ends (f x)) {text : β → String} :
    ∀ piece ∈ .ok heading :: arrows (xs.map fun x => do return text (← f x)) ++ [.ok "\n"],
      Ends piece := by
  refine List.forall_mem_append.2 ⟨List.forall_mem_cons.2 ⟨.ok, ?_⟩, ?_⟩
  rotate_left
  · exact List.forall_mem_singleton.2 .ok
  exact ends_of_mem_arrows (List.forall_mem_map.2 fun x hx => (h x hx).bind fun _ => .ok)

end Pieces

namespace Table

variable {P : Params} {t : Table P} {now : Nat} {cpu : Cpu} {i : Slot}

/-- A walk of a chain meets slots of the table only. -/
def Confined (t : Table P) : Prop :=
  ∀ place c, t.chain? place = some c → ∀ i ∈ c.walk t.links, i < P.capacity

theorem Sound.confined (h : t.Sound) : t.Confined := by
  intro place c hc i hi
  have hqueue : t.view.queue place = c.walk t.links := by simp [queue, hc]
  rw [← hqueue] at hi
  exact ((h.valid.mem_iff place i).1 hi).1

theorem ends_process (h : i < P.capacity) : Ends (t.process i) := ⟨_, process_of_lt h⟩

theorem Closed.ends_summary (h : t.Closed) : Ends (t.summary now (t.record i)) :=
  ⟨_, summary_eq_ok (h i)⟩

/-- Nothing that only reads the table faults; who asks for its owner, its group or a kill has to be
on a CPU. -/
structure Readable (t : Table P) : Prop where
  readyPids : ∀ level, Ends (t.readyPids level)
  priority : ∀ pid, Ends (t.priority? pid)
  currentPid : ∀ cpu, Ends (t.currentPid? cpu)
  currentParentPid : ∀ cpu, Ends (t.currentParentPid? cpu)
  uid : ∀ cpu i, t.occupant? cpu = some i → Ends (t.uid cpu)
  gid : ∀ cpu i, t.occupant? cpu = some i → Ends (t.gid cpu)
  isKilled : ∀ cpu i, t.occupant? cpu = some i → Ends (t.isKilled cpu)
  snapshot : ∀ now limit, Ends (t.snapshot now limit)
  lookup : ∀ now pid, Ends (t.lookup now pid)
  dump : ∀ now held limit, Ends (t.dump now held limit)
  dumpChains : ∀ which limit, Ends (t.dumpChains which limit)

/-! ### Look-ups -/

theorem Sound.ends_readyPids (h : t.Sound) (level : Nat) : Ends (t.readyPids level) := by
  unfold Table.readyPids
  split
  · refine ends_mapM fun i hi => ?_
    exact (ends_process (h.confined (.ready level) _ ‹_› i hi)).bind fun _ => .ok
  · exact .ok

theorem Sound.ends_priority (h : t.Sound) (pid : Pid) : Ends (t.priority? pid) := by
  unfold priority?
  cases hfind : t.find pid searched with
  | error f => cases (h.find_eq_ok pid searched).symm.trans hfind
  | ok found =>
    cases found with
    | none => exact .ok
    | some i => exact (ends_process (h.of_find_eq_some hfind).2.1).bind fun _ => .ok

theorem Sound.ends_currentPid (h : t.Sound) (cpu : Cpu) : Ends (t.currentPid? cpu) := by
  unfold currentPid?
  cases hi : t.occupant? cpu with
  | none => exact .ok
  | some i =>
    have hlt := h.valid.marker_lt cpu i hi
    exact ((ends_process hlt).bind fun _ => .ok).bind fun _ => .ok

/-- The record of the process on a CPU. -/
theorem Sound.ends_current (h : t.Sound) (hi : t.occupant? cpu = some i) : Ends (t.current cpu) :=
  yields_current.ends ⟨i, hi, h.valid.marker_lt cpu i hi⟩

theorem Closed.ends_lookup (h : t.Closed) (hs : t.Sound) (pid : Pid) : Ends (t.lookup now pid) := by
  rcases h.lookup_eq_ok hs now pid with hnone | ⟨i, -, -, hsome⟩
  · exact ⟨_, hnone⟩
  · exact ⟨_, hsome⟩

/-! ### Listings -/

theorem Closed.ends_of_mem_processList (h : t.Closed) :
    ∀ piece ∈ t.processList now, Ends piece := by
  refine List.forall_mem_cons.2 ⟨.ok, List.forall_mem_map.2 fun p hp => ?_⟩
  obtain ⟨i, -, rfl⟩ := mem_procs_iff.1 (List.mem_filter.1 hp).1
  exact h.ends_summary.bind fun _ => .ok

theorem Confined.ends_of_mem_readyLines (h : t.Confined) : ∀ piece ∈ t.readyLines, Ends piece := by
  refine List.forall_mem_cons.2 ⟨.ok, fun piece hpiece => ?_⟩
  obtain ⟨⟨c, level⟩, hc, hpiece⟩ := List.mem_flatMap.1 hpiece
  have hlevel : t.chain? (.ready level) = some c := by
    have hget := List.mem_zipIdx_iff_getElem?.1 (List.mem_reverse.1 hc)
    rwa [Vector.getElem?_toList] at hget
  exact ends_of_mem_line (fun i hi => ends_process (h _ c hlevel i hi)) piece hpiece

theorem Confined.ends_of_mem_sleepingLines (h : t.Confined) :
    ∀ piece ∈ t.sleepingLines, Ends piece :=
  ends_of_mem_line fun i hi => ends_process (h (.stage .sleeping) _ rfl i hi)

theorem Closed.ends_of_mem_zombieLines (h : t.Closed) (hwalks : t.Confined) :
    ∀ piece ∈ t.zombieLines, Ends piece := by
  refine List.forall_mem_append.2 ⟨List.forall_mem_cons.2 ⟨.ok, ?_⟩, ?_⟩
  rotate_left
  · exact List.forall_mem_singleton.2 .ok
  refine ends_of_mem_arrows (List.forall_mem_map.2 fun i hi => ?_)
  rw [process_of_lt (hwalks (.stage .zombie) _ rfl i hi)]
  change Ends (t.parentPid (t.record i) >>= _)
  exact Ends.bind ⟨_, parentPid_eq_ok (h i)⟩ fun _ => .ok

theorem Closed.ends_of_mem_chainList (h : t.Closed) (hwalks : t.Confined) (which : Selection) :
    ∀ piece ∈ t.chainList which, Ends piece := by
  -- what is not selected has no pieces
  have hpart : ∀ (selected : Bool) (part : List Piece), (∀ piece ∈ part, Ends piece) →
      ∀ piece ∈ if selected then part else [], Ends piece := by
    rintro (_ | _) part hpart
    · exact fun piece hpiece => absurd hpiece List.not_mem_nil
    · exact hpart
  simp only [chainList, List.forall_mem_append]
  exact ⟨⟨⟨hpart _ _ hwalks.ends_of_mem_readyLines,
    hpart _ _ (List.forall_mem_singleton.2 .ok)⟩, hpart _ _ hwalks.ends_of_mem_sleepingLines⟩,
    hpart _ _ (h.ends_of_mem_zombieLines hwalks)⟩

/-- **A table in order is readable.** -/
theorem readable_of_closed (h : t.Closed) (hs : t.Sound) : t.Readable where
  readyPids := hs.ends_readyPids
  priority := hs.ends_priority
  currentPid := hs.ends_currentPid
  currentParentPid cpu := ⟨_, h.currentParentPid?_eq_ok hs cpu⟩
  uid _ _ hi := (hs.ends_current hi).bind fun _ => .ok
  gid _ _ hi := (hs.ends_current hi).bind fun _ => .ok
  isKilled _ _ hi := (hs.ends_current hi).bind fun _ => .ok
  snapshot _ limit := ⟨_, h.snapshot_eq_ok limit⟩
  lookup _ := h.ends_lookup hs
  dump now held limit := by
    refine Written.ends_under ?_ limit
    cases held with
    | true => exact List.forall_mem_singleton.2 .ok
    | false => exact h.ends_of_mem_processList
  dumpChains which := Written.ends_under (h.ends_of_mem_chainList hs.confined which)

end Table

end FeedbackQueue
