import FeedbackQueue.Proofs.Audit

/-!
# Audits of arbitrary tables

An audit trusts nothing, so it says something about every table, however it came about.  It passes
exactly when the table is *intact*: the chains are finite sequences of distinct slots, every slot is
at home and nowhere else, priorities are within the levels, and the CPU markers name distinct slots,
all running slots among them.  Otherwise it reports a defect, and the defect is there.

An audit is a sequence of tests.  What a test establishes when it passes is what the next one relies
on: `Passes` says both halves of a test at once, and the walks carry the note of what they have met
(`Met`) from one chain to the next.

## Main definitions

* `Table.Intact` : a table in order.
* `Defect.Present` : what a defect says of a table.

## Main statements

* `Links.leads_follow` : a walk of slots of the table is a sequence, unless it was cut short.
* `Table.passes_auditChain`, `Table.passes_audit` : the walk of one chain, the whole audit.
* `Table.audit_exact` : an audit passes exactly on intact tables, and reports what is there.
-/

namespace FeedbackQueue

namespace Links

variable {n : Nat} {links : Links n} {start : Option Slot}

/-- A walk over slots of the table is a sequence; it stops at an end where it had steps left. -/
theorem leads_follow {k : Nat} (hlt : ∀ i ∈ links.follow k start, i < n) :
    ∃ stop, links.Leads start (links.follow k start) stop ∧
      ((links.follow k start).length < k → stop = none) := by
  induction k generalizing start with
  | zero => exact ⟨start, rfl, fun h => absurd h (Nat.not_lt_zero _)⟩
  | succ k ih =>
    cases start with
    | none => exact ⟨none, rfl, fun _ => rfl⟩
    | some i =>
      simp only [follow, List.mem_cons, forall_eq_or_imp, List.length_cons,
        Nat.add_lt_add_iff_right] at hlt ⊢
      have hlink : links[i]? = some links[i]?.join := by
        rw [Vector.getElem?_eq_getElem hlt.1, Option.join_some]
      obtain ⟨stop, hleads, hstop⟩ := ih hlt.2
      exact ⟨stop, ⟨rfl, _, hlink, hleads⟩, hstop⟩

end Links

namespace Table

variable {P : Params}

/-- A table in order. -/
structure Intact (t : Table P) : Prop where
  /-- From its head a chain leads over its slots to an end; the last of them is its tail and their
  number its length. -/
  threaded : ∀ place c, t.chain? place = some c → c.Holds t.links (t.queue place)
  /-- A chain has distinct slots. -/
  nodup : ∀ place, (t.queue place).Nodup
  /-- A chain has slots of the table only. -/
  lt : ∀ place, ∀ i ∈ t.queue place, i < P.capacity
  /-- A slot is on the chain that its stage and priority name, and on no other. -/
  mem_iff : ∀ i, i < P.capacity → ∀ place, i ∈ t.queue place ↔ (t.record i).home = place
  /-- No priority is above the top level. -/
  priority_le : ∀ i, i < P.capacity → (t.record i).priority ≤ P.maxPriority
  /-- A marker names a slot of the table. -/
  marker_lt : ∀ cpu i, t.occupant? cpu = some i → i < P.capacity
  /-- Two markers name two slots. -/
  marker_inj : ∀ cpu cpu' i, t.occupant? cpu = some i → t.occupant? cpu' = some i → cpu = cpu'
  /-- A running slot is marked on some CPU. -/
  marked : ∀ i ∈ t.queue (.stage .running), ∃ cpu, t.occupant? cpu = some i

variable {t : Table P}

/-- An intact table is sound and runs nobody off the CPUs. -/
theorem Intact.sound (h : t.Intact) : t.Sound ∧ t.view.Scheduled := by
  have hrange : ∀ i, P.capacity ≤ i → t.record i = {} := fun i => record_of_le
  refine ⟨⟨h.threaded, ⟨fun place i => ?_, fun i => ?_, h.marker_lt, h.marker_inj⟩⟩, fun i hi => ?_⟩
  · constructor
    · intro hmem
      have hi := h.lt place i hmem
      exact ⟨hi, (h.mem_iff i hi place).1 hmem, nofun⟩
    · intro ⟨hi, hhome, _⟩
      exact (h.mem_iff i hi place).2 hhome
  · by_cases hi : i < P.capacity
    · exact h.priority_le i hi
    · rw [view_record, hrange i (Nat.le_of_not_lt hi)]
      exact Nat.zero_le _
  · have hhome : (t.record i).home = .stage .running :=
      (Process.home_eq_stage_iff (by decide)).2 hi
    exact h.marked i ((h.mem_iff i (lt_of_stage_eq hi) _).2 hhome)

end Table

/-! ### Defects -/

/-- What a defect says of a table. -/
def Defect.Present {P : Params} (t : Table P) : Defect → Prop
  -- a bad marker is reported at the place of running slots
  | .badIndex place slot => P.capacity ≤ slot ∧
      (slot ∈ t.queue place ∨ place = .stage .running ∧ ∃ cpu, t.occupant? cpu = some slot)
  | .duplicate slot first second => slot ∈ t.queue first ∧ slot ∈ t.queue second ∧
      (first = second → 2 ≤ (t.queue first).count slot)
  | .missing slot => slot < P.capacity ∧ ∀ place, slot ∉ t.queue place
  | .wrongPlace slot stage place => slot < P.capacity ∧ slot ∈ t.queue place ∧
      (t.record slot).stage = stage ∧ (t.record slot).home ≠ place
  | .badPriority slot priority => slot < P.capacity ∧ (t.record slot).priority = priority ∧
      P.maxPriority < priority
  | .lengthMismatch place recorded walked => ∃ c, t.chain? place = some c ∧ c.len = recorded ∧
      (t.queue place).length = walked ∧ recorded ≠ walked
  | .badTail place => ∃ c, t.chain? place = some c ∧ c.tail ≠ (t.queue place).getLast?
  | .unterminated place => ∃ last follower, (t.queue place).getLast? = some last ∧
      t.links[last]? = some (some follower)
  | .countMismatch total capacity => total = ((Table.places P).flatMap t.queue).length ∧
      capacity = P.capacity ∧ total ≠ capacity
  | .sharedSlot slot first second => first < second ∧ t.occupant? first = some slot ∧
      t.occupant? second = some slot
  | .unscheduled slot => slot ∈ t.queue (.stage .running) ∧ (t.record slot).stage = .running ∧
      ∀ cpu, t.occupant? cpu ≠ some slot

namespace Table

variable {P : Params} {α σ : Type}

/-- A test of `t` establishes `Q` when it passes; otherwise the defect it reports is there, and is
not a wrong number of slots. -/
def Passes (t : Table P) (r : Except Defect α) (Q : α → Prop) : Prop :=
  match r with
  | .ok a => Q a
  | .error d => d.Present t ∧ ∀ total capacity, d ≠ .countMismatch total capacity

namespace Passes

variable {t : Table P} {β : Type} {r : Except Defect α} {Q Q' : α → Prop} {R : β → Prop}

theorem ok {a : α} (h : Q a) : t.Passes (.ok a) Q := h

theorem error {d : Defect} (h : d.Present t)
    (hd : ∀ total capacity, d ≠ .countMismatch total capacity := by rintro _ _ ⟨⟩) :
    t.Passes (.error d : Except Defect α) Q := ⟨h, hd⟩

theorem weaken (h : t.Passes r Q) (hQ : ∀ a, Q a → Q' a) : t.Passes r Q' := by
  cases r with
  | ok a => exact hQ a h
  | error d => exact h

theorem bind {k : α → Except Defect β} (h : t.Passes r Q) (hk : ∀ a, Q a → t.Passes (k a) R) :
    t.Passes (r >>= k) R := by
  cases r with
  | ok a => exact hk a h
  | error d => exact h

/-- A test of every entry of a list. -/
theorem forM {f : α → Except Defect Unit} {xs : List α}
    (h : ∀ x ∈ xs, t.Passes (f x) fun _ => Q x) : t.Passes (xs.forM f) fun _ => ∀ x ∈ xs, Q x := by
  rcases forM_eq_ok_or f xs with ⟨hok, hall⟩ | ⟨x, hx, d, hd, herr⟩
  · rw [hok]
    refine ok fun x hx => ?_
    have := h x hx
    rwa [hall x hx] at this
  · rw [herr]
    have := h x hx
    rwa [hd] at this

/-- A pass over a list whose note is right of the part gone through. -/
theorem foldlM {f : σ → α → Except Defect σ} {I : List α → σ → Prop} {xs : List α} {s : σ}
    (h : I [] s) (step : ∀ pre x post s, xs = pre ++ x :: post → I pre s →
      t.Passes (f s x) (I (pre ++ [x]))) : t.Passes (xs.foldlM f s) (I xs) := by
  have key : ∀ pre post s, xs = pre ++ post → I pre s → t.Passes (post.foldlM f s) (I xs) := by
    intro pre post
    induction post generalizing pre with
    | nil =>
      intro s hxs hI
      rw [List.append_nil] at hxs
      exact ok (hxs ▸ hI)
    | cons x post ih =>
      intro s hxs hI
      rw [List.foldlM_cons]
      exact (step pre x post s hxs hI).bind fun s' hI' => ih (pre ++ [x]) s' (by simp [hxs]) hI'
  exact key [] xs s rfl h

end Passes

variable {t : Table P} {place : Place} {seen : Seen P}

/-! ### Walks -/

/-- The slots noted are those of the given places, each with its place. -/
def Met (t : Table P) (seen : Seen P) (ps : List Place) : Prop :=
  ∀ i p, seen[i]? = some (some p) ↔ p ∈ ps ∧ i ∈ t.queue p

/-- The slots noted are those of the given places and of the part `pre` of a walk of `place`. -/
def MetWithin (t : Table P) (seen : Seen P) (ps : List Place) (place : Place)
    (pre : List Slot) : Prop :=
  ∀ i p, seen[i]? = some (some p) ↔ p ∈ ps ∧ i ∈ t.queue p ∨ p = place ∧ i ∈ pre

/-- The slots of a part of a walk are distinct and at home. -/
def AtHome (t : Table P) (place : Place) (pre : List Slot) : Prop :=
  pre.Nodup ∧ ∀ i ∈ pre, i < P.capacity ∧ (t.record i).home = place

/-- One more slot of a walk is noted. -/
theorem MetWithin.note {ps : List Place} {pre : List Slot} {i : Slot}
    (h : t.MetWithin seen ps place pre) (hi : i < P.capacity) (hseen : seen[i] = none) :
    t.MetWithin (seen.set i (some place)) ps place (pre ++ [i]) := by
  intro j p
  by_cases hj : j = i
  · subst hj
    have hnew : ¬ (p ∈ ps ∧ j ∈ t.queue p) := fun hq => by
      have hmet := (h j p).2 (.inl hq)
      rw [Vector.getElem?_eq_getElem hi, hseen] at hmet
      cases hmet
    simp [hnew, eq_comm]
  · rw [Vector.getElem?_set_ne hi (Ne.symm hj), h]
    simp [hj]

/-- The note of a whole walk is a note of its place as well. -/
theorem MetWithin.met {ps : List Place} (h : t.MetWithin seen ps place (t.queue place)) :
    t.Met seen (ps ++ [place]) := by
  intro i p
  rw [h i p, List.mem_append, List.mem_singleton, or_and_right]
  refine or_congr_right ⟨?_, ?_⟩
  · rintro ⟨rfl, hi⟩
    exact ⟨rfl, hi⟩
  · rintro ⟨rfl, hi⟩
    exact ⟨rfl, hi⟩

theorem AtHome.concat {pre : List Slot} {i : Slot} (h : t.AtHome place pre) (hnew : i ∉ pre)
    (hi : i < P.capacity) (hhome : (t.record i).home = place) : t.AtHome place (pre ++ [i]) := by
  refine ⟨List.nodup_append.2 ⟨h.1, List.nodup_singleton i, ?_⟩, fun j hj => ?_⟩
  · rintro a ha b hb rfl
    exact hnew (List.mem_singleton.1 hb ▸ ha)
  · rcases List.mem_append.1 hj with hj | hj
    · exact h.2 j hj
    · rw [List.mem_singleton.1 hj]
      exact ⟨hi, hhome⟩

/-- One slot of a walk. -/
theorem passes_auditSlot {ps : List Place} {pre post : List Slot} {i : Slot} (hplace : place ∉ ps)
    (hwalk : t.queue place = pre ++ i :: post) (hmet : t.MetWithin seen ps place pre)
    (hhome : t.AtHome place pre) :
    t.Passes (t.auditSlot place seen i) fun seen' =>
      t.MetWithin seen' ps place (pre ++ [i]) ∧ t.AtHome place (pre ++ [i]) := by
  have hmem : i ∈ t.queue place := by simp [hwalk]
  unfold auditSlot
  split
  · rename_i hi
    have hrecord : t.procs[i] = t.record i := procs_getElem hi
    rw [hrecord]
    split
    · rename_i first hseen
      have hfirst : seen[i]? = some (some first) := by rw [Vector.getElem?_eq_getElem hi, hseen]
      refine .error ?_
      rcases (hmet i first).1 hfirst with ⟨hps, hqueue⟩ | ⟨rfl, hpre⟩
      · -- met on the walk of another place
        refine ⟨hqueue, hmem, ?_⟩
        rintro rfl
        exact absurd hps hplace
      · -- met earlier on this walk
        refine ⟨hmem, hmem, fun _ => ?_⟩
        rw [hwalk, List.count_append, List.count_cons_self]
        have := List.count_pos_iff.2 hpre
        omega
    · rename_i hseen
      have hnew : i ∉ pre := fun hpre => by
        have := (hmet i place).2 (.inr ⟨rfl, hpre⟩)
        rw [Vector.getElem?_eq_getElem hi, hseen] at this
        cases this
      split
      · exact .ok ⟨hmet.note hi hseen, hhome.concat hnew hi ‹_›⟩
      · exact .error ⟨hi, hmem, rfl, ‹_›⟩
  · exact .error ⟨Nat.le_of_not_lt ‹_›, .inl hmem⟩

/-- The last test of a walk: it comes to an end, unless the last slot links on. -/
theorem holds_or_unterminated {c : Chain} (hcap : 0 < P.capacity) (hc : t.chain? place = some c)
    (hlt : ∀ i ∈ t.queue place, i < P.capacity) (hlen : (t.queue place).length = c.len)
    (htail : c.tail = (t.queue place).getLast?) :
    c.Holds t.links (t.queue place) ∨ ∃ last follower,
      (t.queue place).getLast? = some last ∧ t.links[last]? = some (some follower) := by
  rw [queue_of_chain? hc] at hlt hlen htail ⊢
  obtain ⟨stop, hleads, hstop⟩ := Links.leads_follow hlt
  change t.links.Leads c.head (c.walk t.links) stop at hleads
  change (c.walk t.links).length < P.capacity → stop = none at hstop
  cases stop with
  | none => exact .inl ⟨hleads, htail, hlen.symm⟩
  | some follower =>
    cases hlast : (c.walk t.links).getLast? with
    | none =>
      -- an empty walk of a table with slots was not cut short
      rw [List.getLast?_eq_none_iff] at hlast
      exact nomatch hstop (by simp [hlast, hcap])
    | some last => exact .inr ⟨last, follower, rfl, hleads.getLast_link hlast⟩

/-- The walk of one chain: its slots are noted as well, and it holds them. -/
theorem passes_auditChain {ps : List Place} {c : Chain} (hcap : 0 < P.capacity)
    (hplace : place ∉ ps) (hc : t.chain? place = some c) (hmet : t.Met seen ps) :
    t.Passes (t.auditChain seen place c) fun seen' =>
      t.Met seen' (ps ++ [place]) ∧ t.AtHome place (t.queue place) ∧
        c.Holds t.links (t.queue place) := by
  have hwalk : c.walk t.links = t.queue place := (queue_of_chain? hc).symm
  unfold auditChain
  simp only [hwalk]
  refine Passes.bind (Passes.foldlM
    (I := fun pre seen => t.MetWithin seen ps place pre ∧ t.AtHome place pre)
    ⟨fun i p => by simp [hmet i p], List.nodup_nil, nofun⟩ ?_) ?_
  · intro pre i post seen hsplit ⟨hin, hhome⟩
    exact passes_auditSlot hplace hsplit hin hhome
  intro seen' ⟨hin, hhome⟩
  split
  · exact .error ⟨c, hc, rfl, rfl, Ne.symm ‹_›⟩
  rename_i hlen
  split
  · exact .error ⟨c, hc, ‹_›⟩
  rename_i htail
  rcases holds_or_unterminated hcap hc (fun i hi => (hhome.2 i hi).1) (not_not.1 hlen)
    (not_not.1 htail) with hholds | ⟨last, follower, hlast, hlink⟩
  · cases hlast : (t.queue place).getLast? with
    | none => exact .ok ⟨hin.met, hhome, hholds⟩
    | some last =>
      have hlink := hholds.1.getLast_link hlast
      simp only [hlink, Option.join_some]
      exact .ok ⟨hin.met, hhome, hholds⟩
  · simp only [hlast, hlink, Option.join_some]
    exact .error ⟨last, follower, hlast, hlink⟩

/-! ### All chains -/

theorem mem_chains_iff {c : Chain} :
    (place, c) ∈ t.chains ↔ place ∈ places P ∧ t.chain? place = some c := by
  unfold chains
  rw [List.mem_filterMap]
  constructor
  · rintro ⟨p, hp, h⟩
    obtain ⟨d, hd, heq⟩ := Option.map_eq_some_iff.1 h
    cases heq
    exact ⟨hp, hd⟩
  · intro ⟨hp, hc⟩
    exact ⟨place, hp, by rw [hc]; rfl⟩

/-- Every chain has its place in an audit. -/
theorem mem_places_of_chain? {c : Chain} (h : t.chain? place = some c) : place ∈ places P := by
  unfold places
  rcases place with s | level
  · refine List.mem_append_left _ (List.mem_map_of_mem ?_)
    cases s <;> first | cases h; done | decide
  · have hlevel : level < P.maxPriority + 1 := (Vector.getElem?_eq_some_iff.1 h).1
    exact List.mem_append_right _ (List.mem_map_of_mem (List.mem_range.2 hlevel))

theorem nodup_chains : (t.chains.map Prod.fst).Nodup := by
  have hsub : (t.chains.map Prod.fst).Sublist (places P) := by
    unfold chains
    induction places P with
    | nil => exact .slnil
    | cons place ps ih =>
      cases hc : t.chain? place with
      | none => simpa [List.filterMap_cons, hc] using ih.cons place
      | some c => simpa [List.filterMap_cons, hc] using ih
  exact hsub.nodup nodup_places

/-- What the walks of the chains of some places establish. -/
structure Walked (t : Table P) (seen : Seen P) (ps : List Place) : Prop where
  /-- The slots of the places are noted. -/
  met : t.Met seen ps
  /-- They are distinct and at home. -/
  home : ∀ place ∈ ps, t.AtHome place (t.queue place)
  /-- The chains hold them. -/
  holds : ∀ place ∈ ps, ∀ c, t.chain? place = some c → c.Holds t.links (t.queue place)

theorem passes_chains (hcap : 0 < P.capacity) :
    t.Passes (t.chains.foldlM (fun seen (place, c) => t.auditChain seen place c)
      (Vector.replicate P.capacity none)) fun seen => t.Walked seen (t.chains.map Prod.fst) := by
  refine Passes.foldlM (I := fun pre seen => t.Walked seen (pre.map Prod.fst)) ⟨?_, nofun, nofun⟩ ?_
  · intro i p
    simp [Vector.getElem?_replicate]
  · intro pre ⟨place, c⟩ post seen hsplit hw
    have hc := (mem_chains_iff.1 (show (place, c) ∈ t.chains by simp [hsplit])).2
    have hnew : place ∉ pre.map Prod.fst := by
      have hnodup := nodup_chains (t := t)
      rw [hsplit, List.map_append, List.nodup_append] at hnodup
      exact fun hmem => hnodup.2.2 place hmem place (by simp) rfl
    refine (passes_auditChain hcap hnew hc hw.met).weaken fun seen' ⟨hmet, hhome, hholds⟩ => ?_
    rw [List.map_append]
    refine ⟨hmet, fun p hp => ?_, fun p hp d hd => ?_⟩
    · rcases List.mem_append.1 hp with hp | hp
      · exact hw.home p hp
      · obtain rfl : p = place := by simpa using hp
        exact hhome
    · rcases List.mem_append.1 hp with hp | hp
      · exact hw.holds p hp d hd
      · obtain rfl : p = place := by simpa using hp
        rw [hc] at hd
        cases hd
        exact hholds

theorem mem_chains_of_chain? {c : Chain} (hc : t.chain? place = some c) :
    place ∈ t.chains.map Prod.fst :=
  List.mem_map.2 ⟨(place, c), mem_chains_iff.2 ⟨mem_places_of_chain? hc, hc⟩, rfl⟩

namespace Walked

variable (h : t.Walked seen (t.chains.map Prod.fst))
include h

/-- A slot on a chain is at home there. -/
theorem atHome (place : Place) : t.AtHome place (t.queue place) := by
  cases hc : t.chain? place with
  | none =>
    have hempty : t.queue place = [] := by simp [queue, hc]
    rw [hempty]
    exact ⟨List.nodup_nil, List.forall_mem_nil _⟩
  | some c => exact h.home place (mem_chains_of_chain? hc)

theorem threaded : t.Threaded := fun place c hc => h.holds place (mem_chains_of_chain? hc) c hc

/-- A slot on no chain was not met. -/
theorem mem_of_met {i : Slot} (hi : i ∈ t.queue place) : seen[i]? = some (some place) := by
  refine (h.met i place).2 ⟨?_, hi⟩
  cases hc : t.chain? place with
  | none => simp [queue, hc] at hi
  | some c => exact mem_chains_of_chain? hc

end Walked

/-! ### Records and markers -/

/-- A slot is on some chain, and its priority within the levels. -/
theorem passes_auditRecord (h : t.Walked seen (t.chains.map Prod.fst)) (i : Fin P.capacity) :
    t.Passes (t.auditRecord seen i) fun _ =>
      i.val ∈ t.queue (t.record i).home ∧ (t.record i).priority ≤ P.maxPriority := by
  have hrecord : t.procs[i] = t.record i := procs_getElem i.isLt
  have hget : seen[i.val]? = some seen[i] := Vector.getElem?_eq_getElem i.isLt
  simp only [auditRecord, hrecord]
  split
  · rename_i hnone
    refine .error ⟨i.isLt, fun place hi => ?_⟩
    have hmet := h.mem_of_met hi
    rw [hget, Option.some.injEq] at hmet
    simp [hmet] at hnone
  rename_i hsome
  change t.Passes (if P.maxPriority < (t.record i).priority then _ else _) _
  split
  · exact .error ⟨i.isLt, rfl, ‹_›⟩
  · obtain ⟨place, hplace⟩ := Option.ne_none_iff_exists'.1 (by simpa using hsome : seen[i] ≠ none)
    have hmem := ((h.met i place).1 (by rw [hget, hplace])).2
    have hhome := ((h.atHome place).2 i hmem).2
    exact .ok ⟨hhome ▸ hmem, Nat.le_of_not_lt ‹_›⟩

/-- A marker names a slot of the table that no earlier one names. -/
theorem passes_auditMarker (cpu : Cpu) :
    t.Passes (t.auditMarker cpu) fun _ => ∀ i, t.occupant? cpu = some i →
      i < P.capacity ∧ ∀ first < cpu, t.occupant? first ≠ some i := by
  unfold auditMarker
  split
  · exact .ok fun i hi => by simp_all
  rename_i i hcpu
  split
  · rename_i hi
    split
    · rename_i first hfirst
      obtain ⟨hlt, hmarker, -⟩ := List.findIdx?_eq_some_iff_getElem.1 hfirst
      have hbound : first < cpu ∧ first < P.cpus := by simpa [Nat.lt_min] using hlt
      refine .error ⟨hbound.1, ?_, hcpu⟩
      rw [occupant?_eq_some, Vector.getElem?_eq_getElem hbound.2]
      simpa using hmarker
    · rename_i hnone
      refine .ok fun j hj => ?_
      obtain rfl : i = j := Option.some.inj (hcpu.symm.trans hj)
      refine ⟨hi, fun first hlt hfirst => ?_⟩
      rw [occupant?_eq_some] at hfirst
      have hmem : some i ∈ t.markers.toList.take cpu := by
        refine List.mem_iff_getElem?.2 ⟨first, ?_⟩
        rw [List.getElem?_take_of_lt hlt, Vector.getElem?_toList, hfirst]
      simpa using List.findIdx?_eq_none_iff.1 hnone _ hmem
  · exact .error ⟨Nat.le_of_not_lt ‹_›, .inr ⟨rfl, cpu, hcpu⟩⟩

/-! ### The audit -/

/-- An audit that passes leaves nothing to be desired, and one that does not tells the truth. -/
theorem passes_audit (hcap : 0 < P.capacity) : t.Passes t.audit fun _ => t.Intact := by
  unfold audit
  refine (passes_chains hcap).bind fun seen hw => ?_
  refine (Passes.forM fun i _ => passes_auditRecord hw i).bind fun _ hrecords => ?_
  have hmem : ∀ i < P.capacity, ∀ place, i ∈ t.queue place ↔ (t.record i).home = place := by
    intro i hi place
    have hhome := (hrecords ⟨i, hi⟩ (List.mem_finRange _)).1
    constructor
    · exact fun hq => ((hw.atHome place).2 i hq).2
    · rintro rfl
      exact hhome
  have hpriority : ∀ i < P.capacity, (t.record i).priority ≤ P.maxPriority := fun i hi =>
    (hrecords ⟨i, hi⟩ (List.mem_finRange _)).2
  -- every slot is on one chain, so the lengths add up
  have hcount : ((places P).flatMap t.queue).length = P.capacity :=
    length_flatMap_queue (fun place => (hw.atHome place).1)
      (fun place i hi => ((hw.atHome place).2 i hi).1) hmem hpriority
  change t.Passes (if _ ≠ P.capacity then _ else _) _
  unfold chains
  rw [foldr_chains_length, hcount, if_neg (by simp)]
  refine (Passes.forM fun cpu _ => passes_auditMarker cpu).bind fun _ hmarkers => ?_
  have hmarker : ∀ cpu i, t.occupant? cpu = some i →
      i < P.capacity ∧ ∀ first < cpu, t.occupant? first ≠ some i := fun cpu i hcpu =>
    hmarkers cpu (List.mem_range.2 (lt_of_occupant? hcpu)) i hcpu
  refine (Passes.forM (Q := fun i => ∃ cpu, t.occupant? cpu = some i) fun i hi => ?_).weaken
    fun _ hmarked => ?_
  · change t.Passes (if t.isMarked i then _ else _) _
    split
    · exact .ok (isMarked_iff.1 ‹_›)
    · rename_i hm
      have hrunning : i ∈ t.queue (.stage .running) := hi
      obtain ⟨-, hhome⟩ := (hw.atHome _).2 i hrunning
      refine .error ⟨hrunning, (Process.home_eq_stage_iff (by decide)).1 hhome, fun cpu hcpu => ?_⟩
      exact hm (isMarked_iff.2 ⟨cpu, hcpu⟩)
  · refine ⟨hw.threaded, fun place => (hw.atHome place).1, fun place i hi =>
      ((hw.atHome place).2 i hi).1, hmem, hpriority, fun cpu i hcpu => (hmarker cpu i hcpu).1,
      fun cpu cpu' i hcpu hcpu' => ?_, hmarked⟩
    rcases Nat.lt_trichotomy cpu cpu' with hlt | heq | hlt
    · exact absurd hcpu ((hmarker cpu' i hcpu').2 cpu hlt)
    · exact heq
    · exact absurd hcpu' ((hmarker cpu i hcpu).2 cpu' hlt)

/-- A table that passes its audit is intact. -/
theorem intact_of_audit (hcap : 0 < P.capacity) (haudit : t.audit = .ok ()) : t.Intact := by
  have hpasses := passes_audit (t := t) hcap
  rwa [haudit] at hpasses

/-- A table that passes its audit is sound, and its running slots are on CPUs. -/
theorem sound_of_audit (hcheck : P.check = .ok ()) (haudit : t.audit = .ok ()) :
    t.Sound ∧ t.view.Scheduled :=
  (intact_of_audit (P.of_check hcheck).1 haudit).sound

/-- An audit passes exactly on intact tables; a defect that it reports is in the table, and is never
a wrong number of slots on all chains together. -/
theorem audit_exact (h : 0 < P.capacity) (t : Table P) :
    (t.audit = .ok () ↔ t.Intact) ∧
      ∀ d, t.audit = .error d →
        d.Present t ∧ ∀ total capacity, d ≠ .countMismatch total capacity := by
  have hpasses := passes_audit (t := t) h
  refine ⟨⟨fun hok => ?_, fun hintact => ?_⟩, fun d herr => ?_⟩
  · rwa [hok] at hpasses
  · have hsound := hintact.sound
    exact hsound.1.audit_eq_ok_iff.2 hsound.2
  · rwa [herr] at hpasses

/-- Two free slots that follow each other; length and tail are those of a chain of both. -/
def twoLooped : Table { capacity := 2, maxPriority := 0, cpus := 1 } where
  procs := Vector.replicate 2 {}
  links := #v[some 1, some 0]
  unused := { head := some 0, tail := some 1, len := 2 }
  embryo := {}
  sleeping := {}
  running := {}
  zombie := {}
  ready := Vector.replicate 1 {}
  markers := Vector.replicate 1 none
  nextPid := 1
  sweepAt := 0
  root := none

/-- A loop through all slots is found where the walk of it is cut short. -/
theorem audit_exact_twoLooped :
    twoLooped.audit = .error (.unterminated (.stage .unused)) ∧
      (Defect.unterminated (.stage .unused)).Present twoLooped ∧ ¬ twoLooped.Intact := by
  have hexact := audit_exact (by decide) twoLooped
  have herr : twoLooped.audit = .error (.unterminated (.stage .unused)) := by decide
  refine ⟨herr, (hexact.2 _ herr).1, fun hintact => ?_⟩
  rw [hexact.1.2 hintact] at herr
  cases herr

end Table

end FeedbackQueue
