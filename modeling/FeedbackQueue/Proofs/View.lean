import FeedbackQueue.Table.Audit
import FeedbackQueue.Proofs.Chain
import FeedbackQueue.Proofs.Yields
import Mathlib.Logic.Function.Basic

/-!
# What a table shows

A `View` is a table without its links: a record for every slot, a sequence of slots for every place,
and the remaining fields.  Every operation on a sound table is a change of its view, so what an
operation does is said by an equation between views, and whatever the equation leaves out is
unchanged.

A table is *sound* when its chains hold sequences and its view is valid: every slot is at home and
nowhere else, no priority is above the top level, and the CPU markers name distinct slots.  Between
`unlist` and `enlist` one slot is loose, on no chain.

## Main definitions

* `Table.view` : the view of a table.
* `View.revise`, `View.shift` : change the record of a slot in place; take it to another place.
* `View.Valid`, `View.Scheduled`, `Table.Sound` : the invariants.

## Main statements

* `View.shift_queue` : the slots of a place once a slot has been taken to another.
* `View.Valid.drop`, `View.Valid.revise`, `View.Valid.append` : the parts of a change.
* `Table.Threaded.relink` : a table with another chain at one place.
* `Table.Sound.eq_of_view_eq` : a sound table is known by its view.
-/

namespace FeedbackQueue

namespace Process

theorem home_runnable {p : Process} (h : p.stage = .runnable) : p.home = .ready p.priority := by
  simp [home, h]

theorem home_of_ne {p : Process} (h : p.stage ≠ .runnable) : p.home = .stage p.stage := by
  unfold home
  split
  · exact absurd ‹_› h
  · rfl

theorem home_congr {p q : Process} (hs : p.stage = q.stage)
    (hp : q.stage = .runnable → p.priority = q.priority) : p.home = q.home := by
  by_cases h : q.stage = .runnable
  · rw [home_runnable h, home_runnable (hs.trans h), hp h]
  · rw [home_of_ne h, home_of_ne (by rwa [hs]), hs]

/-- The home is the chain of the stage exactly in that stage. -/
theorem home_eq_stage_iff {p : Process} {s : Stage} (hs : s ≠ .runnable) :
    p.home = .stage s ↔ p.stage = s := by
  by_cases h : p.stage = .runnable
  · rw [home_runnable h, h]
    simp [Ne.symm hs]
  · rw [home_of_ne h]
    simp

theorem home_eq_ready_iff {p : Process} {level : Nat} :
    p.home = .ready level ↔ p.stage = .runnable ∧ p.priority = level := by
  by_cases h : p.stage = .runnable
  · simp [home_runnable h, h]
  · simp [home_of_ne h, h]

end Process

/-- A table without its links. -/
@[ext]
structure View where
  /-- The record of every slot. -/
  record : Slot → Process
  /-- The slots of every place in order. -/
  queue : Place → List Slot
  /-- The slot on every CPU. -/
  marker : Cpu → Option Slot
  /-- The pid of the next allocation. -/
  nextPid : Nat
  /-- Tick from which on a promotion sweep is due. -/
  sweepAt : Nat
  /-- Slot of the root process. -/
  root : Option Slot

namespace View

/-- The view with the record of a slot changed in place. -/
def revise (v : View) (i : Slot) (f : Process → Process) : View :=
  { v with record := Function.update v.record i (f (v.record i)) }

/-- The view with a slot taken off its home. -/
def drop (v : View) (i : Slot) : View :=
  { v with
    queue := Function.update v.queue (v.record i).home ((v.queue (v.record i).home).erase i) }

/-- The view with a slot appended to its home. -/
def append (v : View) (i : Slot) : View :=
  { v with queue := Function.update v.queue (v.record i).home (v.queue (v.record i).home ++ [i]) }

/-- The view with the record of a slot changed, and the slot at the end of its new home. -/
def shift (v : View) (i : Slot) (f : Process → Process) : View := ((v.drop i).revise i f).append i

section Fields

variable (v : View) (i : Slot) (f : Process → Process)

@[simp] theorem revise_record :
    (v.revise i f).record = Function.update v.record i (f (v.record i)) := rfl
@[simp] theorem revise_queue : (v.revise i f).queue = v.queue := rfl
@[simp] theorem revise_marker : (v.revise i f).marker = v.marker := rfl
@[simp] theorem revise_nextPid : (v.revise i f).nextPid = v.nextPid := rfl
@[simp] theorem revise_sweepAt : (v.revise i f).sweepAt = v.sweepAt := rfl
@[simp] theorem revise_root : (v.revise i f).root = v.root := rfl

@[simp] theorem drop_record : (v.drop i).record = v.record := rfl
@[simp] theorem drop_marker : (v.drop i).marker = v.marker := rfl
@[simp] theorem drop_root : (v.drop i).root = v.root := rfl

@[simp] theorem append_record : (v.append i).record = v.record := rfl
@[simp] theorem append_marker : (v.append i).marker = v.marker := rfl

@[simp] theorem shift_record :
    (v.shift i f).record = Function.update v.record i (f (v.record i)) := rfl
@[simp] theorem shift_marker : (v.shift i f).marker = v.marker := rfl
@[simp] theorem shift_nextPid : (v.shift i f).nextPid = v.nextPid := rfl
@[simp] theorem shift_sweepAt : (v.shift i f).sweepAt = v.sweepAt := rfl
@[simp] theorem shift_root : (v.shift i f).root = v.root := rfl

end Fields

section Queues

variable {v : View} {i : Slot} {f : Process → Process} {place : Place}

theorem drop_queue : (v.drop i).queue place =
    if (v.record i).home = place then (v.queue place).erase i else v.queue place := by
  unfold drop
  dsimp only
  split
  · rename_i hold
    rw [hold, Function.update_self]
  · rename_i hold
    rw [Function.update_of_ne (Ne.symm hold)]

theorem append_queue : (v.append i).queue place =
    v.queue place ++ if (v.record i).home = place then [i] else [] := by
  unfold append
  dsimp only
  split
  · rename_i hnew
    rw [hnew, Function.update_self]
  · rename_i hnew
    rw [Function.update_of_ne (Ne.symm hnew), List.append_nil]

/-- A place loses the slot if it was at home there, and gets it at the end if it is so now. -/
theorem shift_queue : (v.shift i f).queue place =
    (if (v.record i).home = place then (v.queue place).erase i else v.queue place) ++
      if (f (v.record i)).home = place then [i] else [] := by
  rw [shift, append_queue, revise_queue, drop_queue, revise_record, Function.update_self,
    drop_record]

end Queues

/-- Every slot other than the loose one is at home and nowhere else, priorities are within the
levels, and markers name distinct slots. -/
structure Valid (P : Params) (v : View) (loose : Option Slot) : Prop where
  /-- The slots of a place are those at home there. -/
  mem_iff : ∀ place i,
    i ∈ v.queue place ↔ i < P.capacity ∧ (v.record i).home = place ∧ loose ≠ some i
  /-- No priority is above the top level. -/
  priority_le : ∀ i, (v.record i).priority ≤ P.maxPriority
  /-- A marker names a slot of the table. -/
  marker_lt : ∀ cpu i, v.marker cpu = some i → i < P.capacity
  /-- Two markers name two slots. -/
  marker_inj : ∀ cpu cpu' i, v.marker cpu = some i → v.marker cpu' = some i → cpu = cpu'

/-- Every running slot is on a CPU. -/
def Scheduled (v : View) : Prop := ∀ i, (v.record i).stage = .running → ∃ cpu, v.marker cpu = some i

/-- A slot is on a CPU. -/
def Marked (v : View) (i : Slot) : Prop := ∃ cpu, v.marker cpu = some i

namespace Valid

variable {P : Params} {v : View} {loose : Option Slot} {i j : Slot} {f : Process → Process}

theorem mem_home (h : v.Valid P none) (hi : i < P.capacity) : i ∈ v.queue (v.record i).home :=
  (h.mem_iff _ _).2 ⟨hi, rfl, nofun⟩

/-- A change in place of a record that stays at home. -/
theorem revise (h : v.Valid P loose) (hp : (f (v.record i)).priority ≤ P.maxPriority)
    (hhome : loose ≠ some i → (f (v.record i)).home = (v.record i).home) :
    (v.revise i f).Valid P loose where
  mem_iff place j := by
    rw [revise_queue, h.mem_iff, revise_record]
    by_cases hj : j = i
    · subst hj
      rw [Function.update_self]
      by_cases hl : loose = some j
      · simp [hl]
      · simp [hl, hhome hl]
    · rw [Function.update_of_ne hj]
  priority_le j := by
    rw [revise_record]
    by_cases hj : j = i
    · subst hj
      rwa [Function.update_self]
    · rw [Function.update_of_ne hj]
      exact h.priority_le j
  marker_lt := h.marker_lt
  marker_inj := h.marker_inj

theorem drop (h : v.Valid P none) (hnodup : (v.queue (v.record i).home).Nodup) :
    (v.drop i).Valid P (some i) where
  mem_iff place j := by
    rw [drop_queue]
    split
    · subst place
      rw [hnodup.mem_erase_iff, h.mem_iff]
      constructor
      · rintro ⟨hne, hj, hhome, -⟩
        exact ⟨hj, hhome, fun heq => hne (Option.some.inj heq).symm⟩
      · rintro ⟨hj, hhome, hne⟩
        exact ⟨fun heq => hne (by rw [heq]), hj, hhome, nofun⟩
    · rename_i hp
      rw [h.mem_iff]
      constructor
      · rintro ⟨hj, rfl, -⟩
        refine ⟨hj, rfl, fun heq => hp ?_⟩
        rw [Option.some.inj heq]
      · rintro ⟨hj, hhome, -⟩
        exact ⟨hj, hhome, nofun⟩
  priority_le := h.priority_le
  marker_lt := h.marker_lt
  marker_inj := h.marker_inj

theorem append (h : v.Valid P (some i)) (hi : i < P.capacity) : (v.append i).Valid P none where
  mem_iff place j := by
    rw [append_queue, List.mem_append, h.mem_iff]
    by_cases hj : j = i
    · subst hj
      by_cases hp : (v.record j).home = place <;> simp [hi, hp]
    · have hnot : j ∉ if (v.record i).home = place then [i] else [] := by
        split <;> simp [hj]
      simp [hnot, Ne.symm hj]
  priority_le := h.priority_le
  marker_lt := h.marker_lt
  marker_inj := h.marker_inj

end Valid

end View

namespace Table

variable {P : Params}

/-- The record of a slot; beyond the table, that of a free slot. -/
def record (t : Table P) (i : Slot) : Process := t.procs[i]?.getD {}

/-- The slots of a place in chain order. -/
def queue (t : Table P) (place : Place) : List Slot :=
  ((t.chain? place).map (·.walk t.links)).getD []

/-- The view of a table. -/
def view (t : Table P) : View where
  record := t.record
  queue := t.queue
  marker := t.occupant?
  nextPid := t.nextPid
  sweepAt := t.sweepAt
  root := t.root

/-- Every chain holds the sequence that its walk reports. -/
def Threaded (t : Table P) : Prop :=
  ∀ place c, t.chain? place = some c → c.Holds t.links (t.queue place)

/-- The chains hold sequences, and the view is valid but for the loose slot. -/
structure SoundBut (t : Table P) (loose : Option Slot) : Prop where
  threaded : t.Threaded
  valid : t.view.Valid P loose

/-- The chains hold sequences, and the view is valid. -/
abbrev Sound (t : Table P) : Prop := t.SoundBut none

variable {t t' : Table P} {loose : Option Slot} {i j : Slot} {place place' : Place}

@[simp] theorem view_record : t.view.record = t.record := rfl
@[simp] theorem view_queue : t.view.queue = t.queue := rfl
@[simp] theorem view_marker : t.view.marker = t.occupant? := rfl
@[simp] theorem view_nextPid : t.view.nextPid = t.nextPid := rfl
@[simp] theorem view_sweepAt : t.view.sweepAt = t.sweepAt := rfl
@[simp] theorem view_root : t.view.root = t.root := rfl

/-! ### Records -/

theorem procs_getElem?_of_lt (h : i < P.capacity) : t.procs[i]? = some (t.record i) := by
  simp [record, h]

theorem procs_getElem (h : i < P.capacity) : t.procs[i] = t.record i := by
  simp [record, h]

theorem process_of_lt (h : i < P.capacity) : t.process i = .ok (t.record i) := by
  rw [process, procs_getElem?_of_lt h]

/-- Reading the record of a slot. -/
theorem yields_process : Yields (i < P.capacity) (t.process i) fun p =>
    i < P.capacity ∧ p = t.record i := by
  by_cases h : i < P.capacity
  · rw [process_of_lt h]
    exact .ok ⟨h, rfl⟩
  · rw [process, Vector.getElem?_eq_none (Nat.le_of_not_lt h)]
    exact .error h rfl

theorem record_of_le (h : P.capacity ≤ i) : t.record i = {} := by
  rw [record, Vector.getElem?_eq_none h]
  rfl

/-- A slot in use is a slot of the table. -/
theorem lt_of_stage_ne (h : (t.record i).stage ≠ .unused) : i < P.capacity := by
  by_contra hi
  rw [record_of_le (Nat.le_of_not_lt hi)] at h
  exact h rfl

theorem lt_of_stage_eq {s : Stage} (h : (t.record i).stage = s) (hs : s ≠ .unused := by decide) :
    i < P.capacity :=
  lt_of_stage_ne (h ▸ hs)

theorem revise_of_lt {f : Process → Process} (h : i < P.capacity) :
    ∃ t', t.revise i f = .ok t' ∧ t'.view = t.view.revise i f ∧ t'.links = t.links ∧
      t'.chain? = t.chain? := by
  refine ⟨{ t with procs := t.procs.set i (f t.procs[i]) h }, by simp [revise, h], ?_, rfl, rfl⟩
  have hrecord : t.record i = t.procs[i] := by simp [record, h]
  refine View.ext ?_ rfl rfl rfl rfl rfl
  funext j
  rw [View.revise_record, view_record, view_record, ← hrecord]
  by_cases hj : j = i
  · subst hj
    simp [record, h]
  · rw [Function.update_of_ne hj]
    simp [record, Vector.getElem?_set_ne h (Ne.symm hj)]

/-! ### Chains -/

theorem chain?_stage_isSome {s : Stage} (h : s ≠ .runnable) : (t.chain? (.stage s)).isSome := by
  cases s <;> first | rfl | exact absurd rfl h

theorem chain?_ready_isSome {level : Nat} (h : level ≤ P.maxPriority) :
    (t.chain? (.ready level)).isSome := by
  simp only [chain?]
  rw [Vector.getElem?_eq_getElem (by omega)]
  rfl

/-- The home of a process within the levels has a chain. -/
theorem chain?_home_isSome {p : Process} (h : p.priority ≤ P.maxPriority) :
    (t.chain? p.home).isSome := by
  by_cases hs : p.stage = .runnable
  · rw [Process.home_runnable hs]
    exact chain?_ready_isSome h
  · rw [Process.home_of_ne hs]
    exact chain?_stage_isSome hs

theorem queue_of_chain? {c : Chain} (h : t.chain? place = some c) :
    t.queue place = c.walk t.links := by
  simp [queue, h]

theorem queue_of_holds {c : Chain} {xs : List Slot} (h : t.chain? place = some c)
    (hc : c.Holds t.links xs) : t.queue place = xs := by
  rw [queue_of_chain? h, hc.walk_eq]

theorem SoundBut.nodup_queue (h : t.SoundBut loose) (place : Place) : (t.queue place).Nodup := by
  cases hchain : t.chain? place with
  | none => simp [queue, hchain]
  | some c => exact (h.threaded place c hchain).nodup

theorem homeChain_eq_ok {p : Process} {c : Chain} (h : t.chain? p.home = some c) :
    t.homeChain p = .ok c := by
  rw [homeChain, h]

theorem chain?_setChain_self {c : Chain} (h : (t.chain? place).isSome) :
    (t.setChain c place).chain? place = some c := by
  rcases place with s | level
  · cases s <;> first | rfl | cases h
  · obtain ⟨d, hd⟩ := Option.isSome_iff_exists.1 h
    have hlevel : level < P.maxPriority + 1 := (Vector.getElem?_eq_some_iff.1 hd).1
    simp [setChain, chain?, hlevel]

theorem chain?_setChain_of_ne {c : Chain} (h : place' ≠ place) :
    (t.setChain c place).chain? place' = t.chain? place' := by
  rcases place with s | level
  · rcases place' with s' | level'
    · cases s <;> cases s' <;> first | rfl | exact absurd rfl h
    · cases s <;> rfl
  · rcases place' with s' | level'
    · cases s' <;> rfl
    · have : level ≠ level' := fun he => h (by rw [he])
      simp [setChain, chain?, Vector.getElem?_setIfInBounds_ne this]

/-- The table with another chain at one place and other links. -/
theorem Threaded.relink (h : t.Threaded) {c : Chain} {links : Links P.capacity} {xs : List Slot}
    (hplace : (t.chain? place).isSome) (hc : c.Holds links xs)
    (same : ∀ place', place' ≠ place → ∀ j ∈ t.queue place', links[j]? = t.links[j]?) :
    (setChain { t with links } c place).Threaded ∧
      (setChain { t with links } c place).view =
        { t.view with queue := Function.update t.queue place xs } := by
  have hlinks : (setChain { t with links } c place).links = links := by
    rcases place with s | level
    · cases s <;> rfl
    · rfl
  have hother : ∀ place', place' ≠ place →
      (setChain { t with links } c place).chain? place' = t.chain? place' := by
    intro place' hne
    rw [chain?_setChain_of_ne hne]
    rcases place' with s | level
    · cases s <;> rfl
    · rfl
  have hself : (setChain { t with links } c place).chain? place = some c := by
    refine chain?_setChain_self ?_
    rcases place with s | level
    · cases s <;> exact hplace
    · exact hplace
  -- the other chains keep their slots, hence their links
  have hold : ∀ place', place' ≠ place → ∀ d, t.chain? place' = some d →
      d.Holds links (t.queue place') := fun place' hne d hd =>
    (h place' d hd).congr (same place' hne)
  have hqueue : ∀ place', (setChain { t with links } c place).queue place' =
      Function.update t.queue place xs place' := by
    intro place'
    by_cases hne : place' = place
    · subst hne
      rw [Function.update_self]
      exact queue_of_holds hself (by rwa [hlinks])
    · rw [Function.update_of_ne hne]
      cases hd : t.chain? place' with
      | none => simp [queue, hother place' hne, hd]
      | some d =>
        refine queue_of_holds ((hother place' hne).trans hd) ?_
        rw [hlinks]
        exact hold place' hne d hd
  constructor
  · intro place' d hd
    rw [hlinks, hqueue]
    by_cases hne : place' = place
    · subst hne
      rw [hself] at hd
      cases hd
      rwa [Function.update_self]
    · rw [Function.update_of_ne hne]
      exact hold place' hne d ((hother place' hne).symm.trans hd)
  · refine View.ext ?_ (funext hqueue) ?_ ?_ ?_ ?_ <;>
    · rcases place with s | level
      · cases s <;> rfl
      · rfl

/-! ### A table by its view -/

theorem chain?_isSome_eq (t t' : Table P) (place : Place) :
    (t.chain? place).isSome = (t'.chain? place).isSome := by
  rcases place with s | level
  · cases s <;> rfl
  · by_cases hlevel : level < P.maxPriority + 1 <;> simp [chain?, hlevel]

/-- A place with the same slots in two tables has the same chain in both. -/
theorem Threaded.chain?_eq (h : t.Threaded) (h' : t'.Threaded)
    (hqueue : t'.queue place = t.queue place) : t'.chain? place = t.chain? place := by
  have hsome := chain?_isSome_eq t' t place
  cases hc : t.chain? place with
  | none => simpa [hc] using hsome
  | some c =>
    rw [hc, Option.isSome_some] at hsome
    obtain ⟨c', hc'⟩ := Option.isSome_iff_exists.1 hsome
    have hholds := h' place c' hc'
    rw [hqueue] at hholds
    rw [hc', hholds.unique (h place c hc)]

/-- A slot whose home has the same slots in two tables has the same link in both. -/
theorem Sound.link_eq (h : t.Sound) (h' : t'.Threaded)
    (hqueue : t'.queue (t.record i).home = t.queue (t.record i).home) :
    t'.links[i]? = t.links[i]? := by
  by_cases hi : i < P.capacity
  · obtain ⟨c, hc⟩ := Option.isSome_iff_exists.1 (t.chain?_home_isSome (h.valid.priority_le i))
    have hholds := h' _ c ((h.threaded.chain?_eq h' hqueue).trans hc)
    rw [hqueue] at hholds
    exact hholds.leads.link_eq (h.threaded _ c hc).leads (h.valid.mem_home hi)
  · have hle := Nat.le_of_not_lt hi
    rw [Vector.getElem?_eq_none hle, Vector.getElem?_eq_none hle]

theorem markers_eq (hmarker : t'.occupant? = t.occupant?) : t'.markers = t.markers := by
  ext1 cpu hcpu
  have hoccupant : t'.occupant? cpu = t.occupant? cpu := congrFun hmarker cpu
  simpa [occupant?, hcpu] using hoccupant

/-- A sound table is known by its view. -/
theorem Sound.eq_of_view_eq (h : t.Sound) (h' : t'.Sound)
    (hview : t'.view = t.view) : t' = t := by
  have hqueue : ∀ place, t'.queue place = t.queue place := congrFun (congrArg View.queue hview)
  have hchain : ∀ place, t'.chain? place = t.chain? place := fun place =>
    h.threaded.chain?_eq h'.threaded (hqueue place)
  have hlinks : t'.links = t.links := by
    ext1 i hi
    have hlink := h.link_eq h'.threaded (hqueue (t.record i).home)
    rwa [Vector.getElem?_eq_getElem hi, Vector.getElem?_eq_getElem hi, Option.some.injEq] at hlink
  have hprocs : t'.procs = t.procs := by
    ext1 i hi
    have hrecord : t'.record i = t.record i := congrFun (congrArg View.record hview) i
    simpa [record, hi] using hrecord
  have hready : t'.ready = t.ready := by
    ext1 level hlevel
    have hget : t'.ready[level]? = t.ready[level]? := hchain (.ready level)
    simpa [hlevel] using hget
  have hmarkers : t'.markers = t.markers := markers_eq (congrArg View.marker hview)
  have hunused := Option.some.inj (hchain (.stage .unused))
  have hembryo := Option.some.inj (hchain (.stage .embryo))
  have hsleeping := Option.some.inj (hchain (.stage .sleeping))
  have hrunning := Option.some.inj (hchain (.stage .running))
  have hzombie := Option.some.inj (hchain (.stage .zombie))
  have hnextPid : t'.nextPid = t.nextPid := congrArg View.nextPid hview
  have hsweepAt : t'.sweepAt = t.sweepAt := congrArg View.sweepAt hview
  have hroot : t'.root = t.root := congrArg View.root hview
  cases t
  cases t'
  rw [Table.mk.injEq]
  exact ⟨hprocs, hlinks, hunused, hembryo, hsleeping, hrunning, hzombie, hready, hmarkers, hnextPid,
    hsweepAt, hroot⟩

end Table

end FeedbackQueue
