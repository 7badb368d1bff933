import FeedbackQueue.Proofs.Agreement
import FeedbackQueue.Proofs.Family

/-!
# Tables that differ in what dead processes have left

A slot keeps what its last process has left until something else is written there: level, budget
and clock readings until the slot is taken, the owner until the new process starts.  Two tables are
*alike* when they differ in nothing else, and alike tables are *twins* when no CPU is on a slot
where they differ.

Most operations read other fields only, or check the stage of a slot first; so they have the same
result on twins, and leave twins.

## Main definitions

* `Process.Twin`, `Table.Alike` : records and tables that differ in what is left over.
* `Table.Twins` : the invariant of two runs.

## Main statements

* `Twins.unlist`, `Twins.revise`, `Twins.enlist` : the parts of a change.
* `Twins.settle` : an audit does not tell twins apart.
-/

namespace FeedbackQueue

/-! ### Records -/

/-- Two records of one slot that differ at most in what its last process has left there. -/
inductive Process.Twin : Process → Process → Prop
  /-- Nothing differs. -/
  | same (p : Process) : Twin p p
  /-- The owner of a process that is being built. -/
  | embryo {p : Process} (h : p.stage = .embryo) (uid gid : Nat) : Twin p { p with uid, gid }
  /-- Level, budget, clock readings and owner of a free slot. -/
  | unused {p : Process} (h : p.stage = .unused) (priority : Nat) (budget : Int)
      (startedAt cpuTicks dispatchedAt uid gid : Nat) :
      Twin p { p with priority, budget, startedAt, cpuTicks, dispatchedAt, uid, gid }

namespace Process.Twin

variable {p q : Process} {f : Process → Process}

theorem symm (h : p.Twin q) : q.Twin p := by
  cases h with
  | same => exact .same p
  | embryo h uid gid => exact .embryo (p := { p with uid, gid }) h p.uid p.gid
  | unused h priority budget startedAt cpuTicks dispatchedAt uid gid =>
    exact .unused
      (p := { p with priority, budget, startedAt, cpuTicks, dispatchedAt, uid, gid })
      h p.priority p.budget p.startedAt p.cpuTicks p.dispatchedAt p.uid p.gid

theorem pid (h : p.Twin q) : p.pid = q.pid := by cases h <;> rfl

theorem stage (h : p.Twin q) : p.stage = q.stage := by cases h <;> rfl

theorem parent (h : p.Twin q) : p.parent = q.parent := by cases h <;> rfl

theorem channel (h : p.Twin q) : p.channel = q.channel := by cases h <;> rfl

theorem priority (h : p.Twin q) (hs : p.stage ≠ .unused) : p.priority = q.priority := by
  cases h with
  | same | embryo => rfl
  | unused h => exact absurd h hs

theorem stack (h : p.Twin q) : p.stack = q.stack := by cases h <;> rfl

theorem space (h : p.Twin q) : p.space = q.space := by cases h <;> rfl

/-- Records of a process that has started are the same. -/
theorem eq_of_started (h : p.Twin q) (hs : p.stage ≠ .unused ∧ p.stage ≠ .embryo) : p = q := by
  cases h with
  | same => rfl
  | embryo h => exact absurd h hs.2
  | unused h => exact absurd h hs.1

/-- Records of a process that is being built are the same but for its owner. -/
theorem eq_of_owner (h : p.Twin q) (hs : p.stage = .embryo) (huid : p.uid = q.uid)
    (hgid : p.gid = q.gid) : p = q := by
  cases h with
  | same => rfl
  | embryo _ uid gid =>
    obtain rfl : p.uid = uid := huid
    obtain rfl : p.gid = gid := hgid
    rfl
  | unused h =>
    rw [hs] at h
    cases h

theorem home (h : p.Twin q) : p.home = q.home := by
  refine home_congr h.stage fun hs => ?_
  rw [h.eq_of_started (by simp [h.stage, hs])]

end Process.Twin

namespace Process

variable {p q : Process}

theorem twin_iff : p.Twin q ↔ p = q ∨
    (p.stage = .embryo ∧ { p with uid := q.uid, gid := q.gid } = q) ∨
    (p.stage = .unused ∧
      { p with
        priority := q.priority, budget := q.budget, startedAt := q.startedAt,
        cpuTicks := q.cpuTicks, dispatchedAt := q.dispatchedAt,
        uid := q.uid, gid := q.gid } = q) := by
  constructor
  · intro h
    cases h with
    | same => exact .inl rfl
    | embryo h => exact .inr (.inl ⟨h, rfl⟩)
    | unused h => exact .inr (.inr ⟨h, rfl⟩)
  · rintro (rfl | ⟨h, e⟩ | ⟨h, e⟩)
    · exact .same p
    · exact e ▸ .embryo h ..
    · exact e ▸ .unused h ..

instance : Decidable (p.Twin q) := decidable_of_iff' _ twin_iff

end Process

namespace Table

variable {P : Params} {t t' : Table P} {i j : Slot} {cpu : Cpu} {f : Process → Process}

/-! ### Tables -/

/-- Two tables that differ at most in what dead processes have left. -/
structure Alike (t t' : Table P) : Prop where
  /-- Everything but the records is the same. -/
  elsewhere : ∃ procs, t' = { t with procs }
  /-- The records differ in what is left over. -/
  record : ∀ i, (t.record i).Twin (t'.record i)

/-- Alike tables with priorities within the levels and the same records on CPUs. -/
structure Twins (t t' : Table P) : Prop extends Alike t t' where
  priority_le : ∀ i, (t.record i).priority ≤ P.maxPriority
  priority_le' : ∀ i, (t'.record i).priority ≤ P.maxPriority
  serving : ∀ cpu i, t.occupant? cpu = some i → t.record i = t'.record i

theorem Alike.symm (h : t.Alike t') : t'.Alike t := by
  refine ⟨?_, fun i => (h.record i).symm⟩
  obtain ⟨procs, rfl⟩ := h.elsewhere
  exact ⟨t.procs, rfl⟩

/-- What does not read the records is the same. -/
theorem Alike.eq_of {α : Type} (h : t.Alike t') (f : Table P → α)
    (hf : ∀ procs, f { t with procs } = f t) : f t' = f t := by
  obtain ⟨procs, rfl⟩ := h.elsewhere
  exact hf procs

theorem Alike.links_eq (h : t.Alike t') : t'.links = t.links := h.eq_of links fun _ => rfl

theorem Alike.chain?_eq (h : t.Alike t') : t'.chain? = t.chain? := h.eq_of chain? fun _ => rfl

theorem Alike.members_eq (h : t.Alike t') : t'.members = t.members :=
  h.eq_of members fun _ => funext fun s => by cases s <;> rfl

theorem Alike.occupant?_eq (h : t.Alike t') : t'.occupant? = t.occupant? :=
  h.eq_of occupant? fun _ => rfl

theorem Alike.ready_eq (h : t.Alike t') : t'.ready = t.ready := h.eq_of ready fun _ => rfl

theorem Alike.isMarked_eq (h : t.Alike t') : t'.isMarked = t.isMarked :=
  h.eq_of isMarked fun _ => rfl

theorem Alike.root_eq (h : t.Alike t') : t'.root = t.root := h.eq_of root fun _ => rfl

/-- Alike tables in order in which only started processes are on CPUs. -/
theorem Alike.twins (h : t.Alike t') (ht : t.Sound) (ht' : t'.Sound)
    (hstarted : ∀ cpu i, t.occupant? cpu = some i →
      (t.record i).stage ≠ .unused ∧ (t.record i).stage ≠ .embryo) : t.Twins t' where
  toAlike := h
  priority_le := ht.valid.priority_le
  priority_le' := ht'.valid.priority_le
  serving cpu i hi := (h.record i).eq_of_started (hstarted cpu i hi)

theorem alike_iff : t.Alike t' ↔
    t' = { t with procs := t'.procs } ∧ ∀ i : Fin P.capacity, (t.record i).Twin (t'.record i) := by
  refine ⟨fun h => ⟨?_, fun i => h.record i⟩, fun ⟨helsewhere, hrecord⟩ => ⟨⟨_, helsewhere⟩, ?_⟩⟩
  · obtain ⟨procs, rfl⟩ := h.elsewhere
    rfl
  · intro i
    by_cases hi : i < P.capacity
    · exact hrecord ⟨i, hi⟩
    · rw [record_of_le (Nat.le_of_not_lt hi), record_of_le (Nat.le_of_not_lt hi)]
      exact .same _

instance : Decidable (t.Alike t') := decidable_of_iff' _ alike_iff

/-- The record of a slot is read in both tables, or in neither. -/
theorem agree_process (t t' : Table P) (i : Slot) :
    Agree (fun p q => i < P.capacity ∧ p = t.record i ∧ q = t'.record i) (t.process i)
      (t'.process i) := by
  by_cases hi : i < P.capacity
  · rw [process_of_lt hi, process_of_lt hi]
    exact .ok ⟨hi, rfl, rfl⟩
  · rw [process, process, Vector.getElem?_eq_none (Nat.le_of_not_lt hi),
      Vector.getElem?_eq_none (Nat.le_of_not_lt hi)]
    exact .error _

namespace Twins

theorem symm (h : t.Twins t') : t'.Twins t := by
  refine ⟨h.toAlike.symm, h.priority_le', h.priority_le, fun cpu i hi => (h.serving cpu i ?_).symm⟩
  obtain ⟨procs, rfl⟩ := h.elsewhere
  exact hi

/-- A change of the record of a slot. -/
theorem revise (h : t.Twins t') (hf : (f (t.record i)).Twin (f (t'.record i)))
    (hp : ∀ p, p.priority ≤ P.maxPriority → (f p).priority ≤ P.maxPriority) :
    Agree (fun u u' => u.Twins u' ∧ u.record i = f (t.record i) ∧ u'.record i = f (t'.record i))
      (t.revise i f) (t'.revise i f) := by
  by_cases hi : i < P.capacity
  · obtain ⟨u, e, hview, -⟩ := t.revise_of_lt (f := f) hi
    obtain ⟨u', e', hview', -⟩ := t'.revise_of_lt (f := f) hi
    have helsewhere : ∃ procs, u' = { u with procs } := by
      obtain ⟨procs, rfl⟩ := h.elsewhere
      rw [Table.revise, dif_pos hi] at e e'
      cases e
      cases e'
      exact ⟨_, rfl⟩
    have hrecord : u.record = Function.update t.record i (f (t.record i)) :=
      congrArg View.record hview
    have hrecord' : u'.record = Function.update t'.record i (f (t'.record i)) :=
      congrArg View.record hview'
    have hmarker : u.occupant? = t.occupant? := congrArg View.marker hview
    rw [e, e']
    refine .ok ⟨⟨⟨helsewhere, fun j => ?_⟩, ?_, ?_, fun cpu j hj => ?_⟩, record_of_revise hview,
      record_of_revise hview'⟩
    · rw [hrecord, hrecord', Function.update_apply, Function.update_apply]
      split
      · exact hf
      · exact h.record j
    · rw [hrecord, Function.forall_update_iff t.record fun _ p => p.priority ≤ P.maxPriority]
      exact ⟨hp _ (h.priority_le i), fun j _ => h.priority_le j⟩
    · rw [hrecord', Function.forall_update_iff t'.record fun _ p => p.priority ≤ P.maxPriority]
      exact ⟨hp _ (h.priority_le' i), fun j _ => h.priority_le' j⟩
    · rw [hmarker] at hj
      rw [hrecord, hrecord', Function.update_apply, Function.update_apply, h.serving cpu j hj]
      split
      · subst j
        rw [h.serving cpu i hj]
      · rfl
  · rw [Table.revise, dif_neg hi, Table.revise, dif_neg hi]
    exact .error _

/-- A change of a slot whose records are the same. -/
theorem revise_same (h : t.Twins t') (hsame : t.record i = t'.record i)
    (hp : ∀ p, p.priority ≤ P.maxPriority → (f p).priority ≤ P.maxPriority) :
    Agree (fun u u' => u.Twins u' ∧ u.record i = u'.record i) (t.revise i f) (t'.revise i f) := by
  refine (h.revise (f := f) (hsame ▸ .same _) hp).mono ?_
  rintro u u' ⟨hu, hi, hi'⟩
  exact ⟨hu, by rw [hi, hi', hsame]⟩

/-- A change of what is not in the records, with no new slot on a CPU. -/
theorem of_eq {u u' : Table P} (h : t.Twins t') (helsewhere : ∃ procs, u' = { u with procs })
    (hrecord : u.record = t.record) (hrecord' : u'.record = t'.record)
    (hmarker : ∀ cpu i, u.occupant? cpu = some i → t.occupant? cpu = some i) : u.Twins u' where
  elsewhere := helsewhere
  record i := by
    rw [hrecord, hrecord']
    exact h.record i
  priority_le i := hrecord ▸ h.priority_le i
  priority_le' i := hrecord' ▸ h.priority_le' i
  serving cpu i hi := by
    rw [hrecord, hrecord']
    exact h.serving cpu i (hmarker cpu i hi)

/-! ### Chains -/

theorem exists_homeChain (h : t.Twins t') (i : Slot) :
    ∃ c, t.homeChain (t.record i) = .ok c ∧ t'.homeChain (t'.record i) = .ok c := by
  obtain ⟨c, hc⟩ := Option.isSome_iff_exists.1 (t.chain?_home_isSome (h.priority_le i))
  refine ⟨c, homeChain_eq_ok hc, homeChain_eq_ok ?_⟩
  rw [h.chain?_eq, ← (h.record i).home, hc]

theorem setChain_record (links : Links P.capacity) (c : Chain) (place : Place) :
    (setChain { t with links } c place).record = t.record := by
  rcases place with s | level
  · cases s <;> rfl
  · rfl

/-- Another chain at a place, and other links. -/
theorem relink (h : t.Twins t') (links : Links P.capacity) (c : Chain) (place : Place) :
    (setChain { t with links } c place).Twins (setChain { t' with links } c place) := by
  obtain ⟨procs, rfl⟩ := h.elsewhere
  rcases place with s | level
  · cases s <;> exact h.of_eq ⟨procs, rfl⟩ rfl rfl fun _ _ => id
  · exact h.of_eq ⟨procs, rfl⟩ rfl rfl fun _ _ => id

/-- Taking a slot off its home chain checks its stage. -/
theorem unlist (h : t.Twins t') {s : Stage} :
    Agree (fun u u' => u.Twins u' ∧ (t.record i).stage = s ∧ u.record = t.record ∧
      u'.record = t'.record) (t.unlist i s) (t'.unlist i s) := by
  unfold Table.unlist
  refine (agree_process t t' i).bind ?_
  rintro p q ⟨-, rfl, rfl⟩
  obtain ⟨c, hc, hc'⟩ := h.exists_homeChain i
  have hi := h.record i
  rw [hc, hc', h.links_eq]
  refine (Agree.same (c.remove t.links i)).bind ?_
  rintro removed _ rfl
  rcases removed with _ | ⟨c, links⟩
  · dsimp only
    rw [hi.pid, hi.stage]
    exact .error _
  · have hrequire : (t.record i).require s = (t'.record i).require s := by
      rw [Process.require, Process.require, hi.pid, hi.stage]
    refine (Agree.of_eq hrequire).tagged.bind ?_
    rintro _ _ ⟨-, hs, -⟩
    rw [← hi.home]
    exact .pure ⟨h.relink links c _, Process.require_eq_ok.1 hs, setChain_record ..,
      setChain_record ..⟩

/-- A process that has started has the same record in both tables. -/
theorem unlist_started (h : t.Twins t') {s : Stage} (hs : s ≠ .unused ∧ s ≠ .embryo) :
    Agree (fun u u' => u.Twins u' ∧ u.record i = u'.record i) (t.unlist i s) (t'.unlist i s) := by
  refine h.unlist.mono ?_
  rintro u u' ⟨hu, hstage, hrecord, hrecord'⟩
  exact ⟨hu, by rw [hrecord, hrecord', (h.record i).eq_of_started (hstage ▸ hs)]⟩

theorem enlist (h : t.Twins t') :
    Agree (fun u u' => u.Twins u' ∧ u.record = t.record ∧ u'.record = t'.record) (t.enlist i)
      (t'.enlist i) := by
  unfold Table.enlist
  refine (agree_process t t' i).bind ?_
  rintro p q ⟨-, rfl, rfl⟩
  obtain ⟨c, hc, hc'⟩ := h.exists_homeChain i
  rw [hc, hc', h.links_eq]
  refine (Agree.same (c.push t.links i)).bind ?_
  rintro ⟨c, links⟩ _ rfl
  rw [← (h.record i).home]
  exact .pure ⟨h.relink links c _, setChain_record .., setChain_record ..⟩

/-- A move of a slot that shows no more in its new stage. -/
theorem move (h : t.Twins t') {source target : Stage}
    (htarget : (t.record i).stage = source →
      ((t.record i).enter target).Twin ((t'.record i).enter target)) :
    Agree Twins (t.move i source target) (t'.move i source target) := by
  unfold Table.move
  refine h.unlist.bind ?_
  rintro u u' ⟨hu, hs, hrecord, hrecord'⟩
  have hf := htarget hs
  rw [← hrecord, ← hrecord'] at hf
  refine (hu.revise hf fun _ => id).bind ?_
  rintro v v' ⟨hv, -⟩
  exact hv.enlist.mono fun _ _ => And.left

end Twins

/-! ### Reading -/

namespace Alike

variable {α : Type}

/-- Reading what two records have in common. -/
theorem process_bind_eq {k k' : Process → Except Fault α} (hk : k (t.record i) = k' (t'.record i)) :
    t.process i >>= k = t'.process i >>= k' := by
  have hread := agree_process t t' i
  generalize t.process i = r at hread
  generalize t'.process i = r' at hread
  cases hread with
  | ok h =>
    obtain ⟨-, rfl, rfl⟩ := h
    exact hk
  | error => rfl

theorem readPid_eq (h : t.Alike t') (i : Slot) :
    (do return (← t'.process i).pid : Except Fault Pid) = (do return (← t.process i).pid) :=
  process_bind_eq (by rw [(h.record i).pid])

theorem find_eq (h : t.Alike t') (pid : Pid) (stages : List Stage) :
    t'.find pid stages = t.find pid stages := by
  have hpid : ∀ i, (do return (← t'.process i).pid = pid : Except Fault Bool) =
      (do return (← t.process i).pid = pid) := fun i =>
    process_bind_eq (by rw [(h.record i).pid])
  unfold find
  simp only [hpid, h.members_eq]

theorem sleepers_eq (h : t.Alike t') (channel : Channel) :
    t'.sleepers channel = t.sleepers channel := by
  have hchannel : ∀ i, (do return (← t'.process i).channel = some channel : Except Fault Bool) =
      (do return (← t.process i).channel = some channel) := fun i =>
    process_bind_eq (by rw [(h.record i).channel])
  unfold sleepers
  simp only [hchannel, h.members_eq]

theorem isChild_eq (h : t.Alike t') (me : Slot) : t'.isChild me = t.isChild me :=
  funext fun i => process_bind_eq (by rw [(h.record i).parent])

end Alike

namespace Twins

/-- The slot on a CPU, whose records are the same. -/
theorem occupant (h : t.Twins t') :
    Agree (fun i i' => i = i' ∧ t.occupant? cpu = some i ∧ t.record i = t'.record i)
      (t.occupant cpu) (t'.occupant cpu) := by
  unfold Table.occupant
  rw [h.occupant?_eq]
  split
  · exact .ok ⟨rfl, ‹_›, h.serving cpu _ ‹_›⟩
  · exact .error _

/-- The record of the process on a CPU. -/
theorem current (h : t.Twins t') : Agree Eq (t.current cpu) (t'.current cpu) := by
  unfold Table.current
  refine h.occupant.bind ?_
  rintro i _ ⟨rfl, -, hsame⟩
  refine (agree_process t t' i).mono ?_
  rintro p q ⟨-, rfl, rfl⟩
  exact hsame

/-- An audit does not tell twins apart. -/
theorem audit_eq (h : t.Twins t') : t'.audit = t.audit := by
  have hslot : ∀ place, t'.auditSlot place = t.auditSlot place := by
    intro place
    funext seen i
    unfold auditSlot
    split
    · rw [procs_getElem, procs_getElem, (h.record i).home, (h.record i).stage]
    · rfl
  have hrecord : ∀ seen, t'.auditRecord seen = t.auditRecord seen := by
    intro seen
    funext i
    simp only [auditRecord, Fin.getElem_fin, procs_getElem i.isLt,
      if_neg (Nat.not_lt.2 (h.priority_le i)), if_neg (Nat.not_lt.2 (h.priority_le' i))]
  have hchain : ∀ seen place c, t'.auditChain seen place c = t.auditChain seen place c := by
    intro seen place c
    simp only [auditChain, hslot, h.links_eq]
  have hchains : t'.chains = t.chains := by
    unfold chains
    rw [h.chain?_eq]
  have hmarker : t'.auditMarker = t.auditMarker := h.eq_of auditMarker fun _ => rfl
  simp only [audit, hchains, hchain, hrecord, hmarker, h.links_eq, h.members_eq, h.isMarked_eq]

/-- A change is followed by an audit. -/
theorem settle (h : t.Twins t') : Agree Twins t.settle t'.settle := by
  unfold Table.settle audited
  rw [h.audit_eq]
  split
  · split
    · exact .ok h
    · exact .error _
  · exact .ok h

end Twins

end Table

end FeedbackQueue
