import FeedbackQueue.Proofs.Moves
import Mathlib.Data.List.Nodup
import Mathlib.Data.List.Perm.Basic

/-!
# Audits of sound tables

An audit of a sound table meets every slot once, at home, and finds all lengths, tails, ends and
markers in order; the one thing left for it to report is a running slot that no CPU is marked with.

## Main statements

* `Sound.audit_eq` : the audit of a sound table is its last test.
* `Sound.audit_eq_ok_iff` : it passes exactly when every running slot is on a CPU.
* `Sound.audit_eq_ok_or` : the defect that it reports otherwise.
-/

namespace FeedbackQueue

namespace Table

variable {P : Params} {t : Table P} {place : Place} {i : Slot}

/-! ### Walks -/

/-- A walk of slots that are at home and new meets every one of them. -/
theorem foldlM_auditSlot {xs : List Slot} (hnodup : xs.Nodup)
    (hhome : ∀ i ∈ xs, i < P.capacity ∧ (t.record i).home = place) {seen : Seen P}
    (hnew : ∀ i ∈ xs, seen[i]? = some none) :
    ∃ seen', xs.foldlM (t.auditSlot place) seen = .ok seen' ∧
      ∀ j, seen'[j]? = if j ∈ xs then some (some place) else seen[j]? := by
  induction xs generalizing seen with
  | nil => exact ⟨seen, rfl, fun j => by simp⟩
  | cons i xs ih =>
    obtain ⟨hnotin, hxs⟩ := List.nodup_cons.1 hnodup
    obtain ⟨hi, hplace⟩ := hhome i List.mem_cons_self
    have hseen : seen[i] = none := by
      have := hnew i List.mem_cons_self
      rwa [Vector.getElem?_eq_getElem hi, Option.some.injEq] at this
    have hrecord : t.procs[i] = t.record i := procs_getElem hi
    have hslot : t.auditSlot place seen i = .ok (seen.set i (some place) hi) := by
      simp [auditSlot, hi, hseen, hrecord, hplace]
    have hother : ∀ j ∈ xs, (seen.set i (some place) hi)[j]? = some none := by
      intro j hj
      rw [Vector.getElem?_set_ne hi (by rintro rfl; exact hnotin hj)]
      exact hnew j (List.mem_cons_of_mem _ hj)
    obtain ⟨seen', e, hseen'⟩ :=
      ih hxs (fun j hj => hhome j (List.mem_cons_of_mem _ hj)) hother
    refine ⟨seen', ?_, fun j => ?_⟩
    · rw [List.foldlM_cons, hslot]
      exact e
    · rw [hseen']
      by_cases hj : j ∈ xs
      · simp [hj]
      · by_cases hji : j = i
        · subst hji
          simp [hj, hi]
        · simp [hj, hji, Vector.getElem?_set_ne hi (Ne.symm hji)]

/-- The walk of a chain that holds new slots, all of them at home. -/
theorem auditChain_of_holds {c : Chain} {xs : List Slot} (seen : Seen P) (hc : c.Holds t.links xs)
    (hhome : ∀ i ∈ xs, i < P.capacity ∧ (t.record i).home = place)
    (hnew : ∀ i ∈ xs, seen[i]? = some none) :
    ∃ seen', t.auditChain seen place c = .ok seen' ∧
      ∀ j, seen'[j]? = if j ∈ xs then some (some place) else seen[j]? := by
  obtain ⟨seen', e, hseen'⟩ := foldlM_auditSlot hc.nodup hhome hnew
  refine ⟨seen', ?_, hseen'⟩
  unfold auditChain
  simp only [hc.walk_eq, e, hc.len_eq, hc.tail_eq, ne_eq, not_true_eq_false, if_false]
  cases hlast : xs.getLast? with
  | none => rfl
  | some last =>
    simp only [hc.leads.getLast_link hlast]
    rfl

/-- The walks of the chains of some places leave every slot that is at home there met, and the
others as they were. -/
theorem foldlM_auditChain (h : t.Sound) (seen : Seen P) {ps : List Place} (hnodup : ps.Nodup)
    (hnew : ∀ i, i < P.capacity → (t.record i).home ∈ ps → seen[i]? = some none) :
    ∃ seen', (ps.filterMap fun place => (t.chain? place).map (place, ·)).foldlM
        (fun seen (place, c) => t.auditChain seen place c) seen = .ok seen' ∧
      ∀ i, i < P.capacity → seen'[i]? =
        if (t.record i).home ∈ ps then some (some (t.record i).home) else seen[i]? := by
  induction ps generalizing seen with
  | nil => exact ⟨seen, rfl, fun i _ => by simp⟩
  | cons place ps ih =>
    obtain ⟨hnotin, hps⟩ := List.nodup_cons.1 hnodup
    cases hchain : t.chain? place with
    | none =>
      -- a home has a chain, so nobody is at home here
      have hnone : ∀ i, (t.record i).home ≠ place := by
        rintro i rfl
        obtain ⟨c, hc, -⟩ := h.exists_homeChain i
        rw [hchain] at hc
        cases hc
      obtain ⟨seen', e, hseen'⟩ :=
        ih seen hps fun i hi hmem => hnew i hi (List.mem_cons_of_mem _ hmem)
      refine ⟨seen', ?_, fun i hi => ?_⟩
      · simpa [List.filterMap_cons, hchain] using e
      · rw [hseen' i hi]
        simp [hnone i]
    | some c =>
      have hc := h.threaded place c hchain
      have hhome : ∀ i ∈ t.queue place, i < P.capacity ∧ (t.record i).home = place := fun i hi =>
        let hm := (h.valid.mem_iff place i).1 hi
        ⟨hm.1, hm.2.1⟩
      obtain ⟨seen₁, e₁, hseen₁⟩ := auditChain_of_holds seen hc hhome fun i hi => by
        obtain ⟨hlt, rfl⟩ := hhome i hi
        exact hnew i hlt List.mem_cons_self
      -- who is met here is not at home at a later place
      have hnew₁ : ∀ i, i < P.capacity → (t.record i).home ∈ ps → seen₁[i]? = some none := by
        intro i hi hmem
        rw [hseen₁, if_neg fun hq => hnotin ((hhome i hq).2 ▸ hmem)]
        exact hnew i hi (List.mem_cons_of_mem _ hmem)
      obtain ⟨seen', e, hseen'⟩ := ih seen₁ hps hnew₁
      refine ⟨seen', ?_, fun i hi => ?_⟩
      · simp only [List.filterMap_cons, hchain, Option.map_some, List.foldlM_cons]
        rw [e₁]
        exact e
      · rw [hseen' i hi, hseen₁]
        have hmem : i ∈ t.queue place ↔ (t.record i).home = place :=
          ⟨fun hq => (hhome i hq).2, fun hp => hp ▸ h.valid.mem_home hi⟩
        by_cases hp : (t.record i).home = place
        · simp [hp, hmem.2 hp, hnotin]
        · simp [hp, mt hmem.1 hp]

/-! ### Places -/

theorem nodup_places : (places P).Nodup := by
  refine List.nodup_append.2 ⟨?_, ?_, ?_⟩
  · decide
  · exact List.nodup_range.map fun a b hab => Place.ready.inj hab
  · rintro p hp q hq rfl
    obtain ⟨s, -, rfl⟩ := List.mem_map.1 hp
    obtain ⟨level, -, hlevel⟩ := List.mem_map.1 hq
    cases hlevel

theorem home_mem_places {p : Process} (h : p.priority ≤ P.maxPriority) : p.home ∈ places P := by
  unfold places
  by_cases hs : p.stage = .runnable
  · rw [Process.home_runnable hs]
    exact List.mem_append_right _ (List.mem_map_of_mem (List.mem_range.2 (by omega)))
  · rw [Process.home_of_ne hs]
    refine List.mem_append_left _ (List.mem_map_of_mem ?_)
    rw [List.mem_filter]
    refine ⟨?_, by simpa using hs⟩
    cases p.stage <;> simp [Stage.all]

theorem foldr_chains_length {ps : List Place} :
    (ps.filterMap fun place => (t.chain? place).map (place, ·)).foldr
        (fun (_, c) n => (c.walk t.links).length + n) 0 = (ps.flatMap t.queue).length := by
  induction ps with
  | nil => rfl
  | cons place ps ih =>
    cases hchain : t.chain? place with
    | none => simpa [List.filterMap_cons, hchain, queue] using ih
    | some c =>
      simp only [List.filterMap_cons, hchain, Option.map_some, List.foldr_cons, ih,
        List.flatMap_cons, List.length_append, queue_of_chain? hchain]

/-- Where every slot is at home and nowhere else, the places together hold every slot once. -/
theorem length_flatMap_queue (hnodup : ∀ place, (t.queue place).Nodup)
    (hlt : ∀ place, ∀ i ∈ t.queue place, i < P.capacity)
    (hhome : ∀ i, i < P.capacity → ∀ place, i ∈ t.queue place ↔ (t.record i).home = place)
    (hpriority : ∀ i, i < P.capacity → (t.record i).priority ≤ P.maxPriority) :
    ((places P).flatMap t.queue).length = P.capacity := by
  have hnodup : ((places P).flatMap t.queue).Nodup := by
    refine List.nodup_flatMap.2 ⟨fun place _ => hnodup place, ?_⟩
    refine List.Pairwise.imp ?_ nodup_places
    intro p q hne i hp hq
    have hi := hlt p i hp
    exact hne (((hhome i hi p).1 hp).symm.trans ((hhome i hi q).1 hq))
  have hmem : ∀ i, i ∈ (places P).flatMap t.queue ↔ i ∈ List.range P.capacity := by
    intro i
    rw [List.mem_flatMap, List.mem_range]
    constructor
    · rintro ⟨place, -, hi⟩
      exact hlt place i hi
    · intro hi
      exact ⟨_, home_mem_places (hpriority i hi), (hhome i hi _).2 rfl⟩
  have hperm := (List.perm_ext_iff_of_nodup hnodup List.nodup_range).2 hmem
  simpa using hperm.length_eq

theorem Sound.length_flatMap_queue (h : t.Sound) :
    ((places P).flatMap t.queue).length = P.capacity := by
  refine Table.length_flatMap_queue h.nodup_queue
    (fun place i hi => ((h.valid.mem_iff place i).1 hi).1) (fun i hi place => ?_)
    fun i _ => h.valid.priority_le i
  rw [← view_queue, h.valid.mem_iff]
  exact ⟨fun hm => hm.2.1, fun hm => ⟨hi, hm, nofun⟩⟩

/-! ### Markers -/

theorem occupant?_eq_some {cpu : Cpu} :
    t.occupant? cpu = some i ↔ t.markers[cpu]? = some (some i) := by
  unfold occupant?
  rw [Option.join_eq_some_iff]

/-- A CPU that is marked exists. -/
theorem lt_of_occupant? {cpu : Cpu} (h : t.occupant? cpu = some i) : cpu < P.cpus :=
  (Vector.getElem?_eq_some_iff.1 (occupant?_eq_some.1 h)).1

theorem isMarked_iff : t.isMarked i = true ↔ t.view.Marked i := by
  unfold isMarked View.Marked
  rw [List.contains_iff_mem, List.mem_iff_getElem?]
  simp only [Vector.getElem?_toList, view_marker, occupant?_eq_some]

theorem SoundBut.auditMarker_eq_ok {loose : Option Slot} (h : t.SoundBut loose) (cpu : Cpu) :
    t.auditMarker cpu = .ok () := by
  unfold auditMarker
  cases hcpu : t.occupant? cpu with
  | none => rfl
  | some i =>
    have hnone : (t.markers.toList.take cpu).findIdx? (fun marker => marker = some i) = none := by
      rw [List.findIdx?_eq_none_iff]
      intro marker hmem
      obtain ⟨k, hk, hget⟩ := List.mem_iff_getElem.1 hmem
      rw [decide_eq_false_iff_not]
      rintro rfl
      have hlt : k < cpu ∧ k < P.cpus := by simpa [Nat.lt_min] using hk
      rw [List.getElem_take, Vector.getElem_toList] at hget
      have hk' : t.occupant? k = some i := by
        rw [occupant?_eq_some, Vector.getElem?_eq_getElem hlt.2, hget]
      -- an earlier CPU with the same slot would be this one
      exact Nat.ne_of_lt hlt.1 (h.valid.marker_inj k cpu i hk' hcpu)
    simp [h.valid.marker_lt cpu i hcpu, hnone]

/-! ### The audit -/

/-- The last test of an audit: a running slot is on a CPU. -/
def auditRunning (t : Table P) (i : Slot) : Except Defect Unit :=
  if t.isMarked i then .ok () else .error (.unscheduled i)

/-- The audit of a sound table comes down to its last test. -/
theorem Sound.audit_eq (h : t.Sound) :
    t.audit = (t.members .running).forM t.auditRunning := by
  obtain ⟨seen, e, hseen⟩ := foldlM_auditChain h (Vector.replicate P.capacity none)
    (nodup_places (P := P)) fun i hi _ => by simp [hi]
  have hrecords : (List.finRange P.capacity).forM (t.auditRecord seen) = .ok () := by
    refine forM_eq_ok fun i _ => ?_
    have hi := hseen i i.isLt
    have hpriority : (t.record i).priority ≤ P.maxPriority := h.valid.priority_le i
    rw [if_pos (home_mem_places hpriority), Vector.getElem?_eq_getElem i.isLt,
      Option.some.injEq] at hi
    have hrecord : t.procs[i] = t.record i := procs_getElem i.isLt
    simp only [auditRecord, Fin.getElem_fin] at hrecord ⊢
    rw [hi, hrecord, if_neg (by simp), if_neg (by omega)]
    rfl
  have hmarkers : (List.range P.cpus).forM t.auditMarker = .ok () :=
    forM_eq_ok fun cpu _ => h.auditMarker_eq_ok cpu
  -- the tests in their order: walks, records, the number of slots, markers, running slots
  unfold audit chains
  rw [e]
  change ((List.finRange P.capacity).forM (t.auditRecord seen) >>= _) = _
  rw [hrecords]
  change (if _ ≠ P.capacity then _ else _) = _
  rw [foldr_chains_length, h.length_flatMap_queue, if_neg (by simp)]
  change ((List.range P.cpus).forM t.auditMarker >>= _) = _
  rw [hmarkers]
  rfl

theorem Sound.mem_running_iff (h : t.Sound) :
    i ∈ t.members .running ↔ (t.record i).stage = .running := by
  have hqueue : t.members .running = t.queue (.stage .running) := rfl
  rw [hqueue, ← view_queue, h.valid.mem_iff, Process.home_eq_stage_iff (by simp)]
  constructor
  · exact fun hm => hm.2.1
  · exact fun hs => ⟨lt_of_stage_ne (by rw [hs]; simp), hs, nofun⟩

/-- An audit of a sound table passes, or names a running slot that is on no CPU. -/
theorem Sound.audit_eq_ok_or (h : t.Sound) :
    (t.audit = .ok () ∧ t.view.Scheduled) ∨
      ∃ i, (t.record i).stage = .running ∧ ¬ t.view.Marked i ∧
        t.audit = .error (.unscheduled i) := by
  rw [h.audit_eq]
  rcases forM_eq_ok_or t.auditRunning (t.members .running) with
    ⟨hok, hall⟩ | ⟨i, hi, d, hd, herr⟩
  · refine .inl ⟨hok, fun i hi => isMarked_iff.1 ?_⟩
    by_contra hm
    have := hall i (h.mem_running_iff.2 hi)
    rw [auditRunning, if_neg hm] at this
    cases this
  · by_cases hm : t.isMarked i = true
    · rw [auditRunning, if_pos hm] at hd
      cases hd
    · rw [auditRunning, if_neg hm] at hd
      cases hd
      exact .inr ⟨i, h.mem_running_iff.1 hi, mt isMarked_iff.2 hm, herr⟩

theorem Sound.audit_eq_ok_iff (h : t.Sound) : t.audit = .ok () ↔ t.view.Scheduled := by
  rcases h.audit_eq_ok_or with ⟨hok, hs⟩ | ⟨i, hi, hm, herr⟩
  · exact ⟨fun _ => hs, fun _ => hok⟩
  · constructor
    · intro hok
      rw [hok] at herr
      cases herr
    · exact fun hs => absurd (hs i hi) hm

end Table

end FeedbackQueue
