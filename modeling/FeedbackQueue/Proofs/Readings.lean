import FeedbackQueue.Proofs.Listings
import FeedbackQueue.Proofs.Twins

/-!
# Reading alike tables

Nothing that reads a table shows level, budget, clock readings or owner of a free slot, so alike
tables read the same, with one exception.  A look-up and the listing of all processes show a process
that is being built, with the owner that the process before it has left in the slot.

## Main definitions

* `Summary.Twin` : two summaries that differ in what is left over.
* `Table.ReadsLike` : what is read of two tables.

## Main statements

* `Twins.readsLike` : twins read the same.
-/

namespace FeedbackQueue

/-- Two summaries of one process that differ at most in its owner, while it is being built. -/
inductive Summary.Twin : Summary → Summary → Prop
  /-- Nothing differs. -/
  | same (s : Summary) : Twin s s
  /-- The owner of a process that is being built. -/
  | embryo {s : Summary} (h : s.stage = .embryo) (uid gid : Nat) : Twin s { s with uid, gid }

namespace Table

variable {P : Params} {t t' : Table P} {i : Slot} {cpu : Cpu} {now : Nat} {p q : Process}

/-- The records of processes that are being built are the same. -/
def SameEmbryos (t t' : Table P) : Prop :=
  ∀ i, (t.record i).stage = .embryo → t.record i = t'.record i

theorem sameEmbryos_iff : t.SameEmbryos t' ↔
    ∀ i : Fin P.capacity, (t.record i).stage = .embryo → t.record i = t'.record i :=
  ⟨fun h i => h i, fun h i hi => h ⟨i, lt_of_stage_eq hi⟩ hi⟩

instance : Decidable (t.SameEmbryos t') := decidable_of_iff' _ sameEmbryos_iff

/-- What is read of two tables is the same, but for the owners of processes that are being built. -/
structure ReadsLike (t t' : Table P) : Prop where
  audit : t'.audit = t.audit
  members : t'.members = t.members
  count : t'.count = t.count
  readyLen : t'.readyLen = t.readyLen
  readyPids : t'.readyPids = t.readyPids
  find : t'.find = t.find
  priority : t'.priority? = t.priority?
  currentPid : t'.currentPid? = t.currentPid?
  currentParentPid : t'.currentParentPid? = t.currentParentPid?
  uid : t'.uid = t.uid
  gid : t'.gid = t.gid
  isKilled : t'.isKilled = t.isKilled
  snapshot : t'.snapshot = t.snapshot
  dumpChains : t'.dumpChains = t.dumpChains
  lookup : ∀ now pid, Agree (Option.Rel Summary.Twin) (t.lookup now pid) (t'.lookup now pid)
  whole : t.SameEmbryos t' → t'.lookup = t.lookup ∧ t'.dump = t.dump

theorem procs_toList_eq (t : Table P) : t.procs.toList = (List.range P.capacity).map t.record := by
  refine List.ext_getElem (by simp) fun i hi _ => ?_
  simp only [Vector.length_toList] at hi
  simp [procs_getElem hi]

namespace Alike

theorem parentPid_eq (h : t.Alike t') (hpq : p.Twin q) : t'.parentPid q = t.parentPid p := by
  unfold parentPid
  rw [hpq.parent, hpq.pid]
  split
  · exact process_bind_eq (by rw [(h.record _).pid])
  · rfl

theorem summary_eq (h : t.Alike t') : t'.summary = t.summary := by
  funext now p
  unfold summary
  rw [h.parentPid_eq (.same p)]

/-- The records that a listing shows. -/
theorem filter_procs_eq (h : t.Alike t') {f : Stage → Bool}
    (hsame : ∀ i, f (t.record i).stage → t.record i = t'.record i) :
    t'.procs.toList.filter (fun p => f p.stage) = t.procs.toList.filter fun p => f p.stage := by
  have hstage : ∀ i, f (t'.record i).stage = f (t.record i).stage := fun i => by
    rw [(h.record i).stage]
  rw [procs_toList_eq, procs_toList_eq, List.filter_map, List.filter_map]
  simp only [Function.comp_def, hstage]
  refine List.map_congr_left fun i hi => (hsame i ?_).symm
  exact (List.mem_filter.1 hi).2

theorem snapshot_eq (h : t.Alike t') : t'.snapshot = t.snapshot := by
  have hshown := h.filter_procs_eq (f := fun s => s ≠ .unused ∧ s ≠ .embryo) fun i hi =>
    (h.record i).eq_of_started (by simpa using hi)
  funext now limit
  unfold snapshot
  rw [h.summary_eq, hshown]

theorem record_eq (h : t.Alike t') (hsame : t.SameEmbryos t') (hi : (t.record i).stage ≠ .unused) :
    t.record i = t'.record i := by
  by_cases hs : (t.record i).stage = .embryo
  · exact hsame i hs
  · exact (h.record i).eq_of_started ⟨hi, hs⟩

/-- The listing of all processes shows owners of processes that are being built. -/
theorem dump_eq (h : t.Alike t') (hsame : t.SameEmbryos t') : t'.dump = t.dump := by
  have hlive := h.filter_procs_eq (f := fun s => s != .unused) fun i hi =>
    h.record_eq hsame (by simpa using hi)
  have hlist : t'.processList = t.processList := by
    funext now
    unfold processList Process.isLive
    rw [h.summary_eq, hlive]
  funext now held limit
  unfold dump
  rw [hlist]

/-! ### Look-ups -/

/-- Going on with the slot that a look-up has found, which is not free. -/
theorem find_agree (h : t.Alike t') (ht : t.Sound) {pid : Pid} {stages : List Stage}
    (hstages : .unused ∉ stages) :
    Agree (fun found found' => found = found' ∧ ∀ i, found = some i → (t.record i).stage ≠ .unused)
      (t.find pid stages) (t'.find pid stages) := by
  rw [h.find_eq]
  refine (Agree.same _).tagged.mono ?_
  rintro found _ ⟨rfl, e, -⟩
  refine ⟨rfl, ?_⟩
  rintro i rfl hs
  exact hstages (hs ▸ (ht.of_find_eq_some e).2.2.2)

theorem summary_agree (h : t.Alike t') (hpq : p.Twin q) (hp : p.stage ≠ .unused) :
    Agree Summary.Twin (t.summary now p) (t'.summary now q) := by
  unfold summary
  rw [h.parentPid_eq hpq]
  refine .bind_eq rfl fun parentPid => .pure ?_
  cases hpq with
  | same => exact .same _
  | embryo hs uid gid => exact .embryo hs uid gid
  | unused hs => exact absurd hs hp

theorem lookup_agree (h : t.Alike t') (ht : t.Sound) (now : Nat) (pid : Pid) :
    Agree (Option.Rel Summary.Twin) (t.lookup now pid) (t'.lookup now pid) := by
  unfold lookup
  refine (h.find_agree ht (by decide)).bind ?_
  rintro found _ ⟨rfl, hfound⟩
  cases found with
  | none => exact .pure .none
  | some i =>
    refine (agree_process t t' i).bind ?_
    rintro p q ⟨-, rfl, rfl⟩
    exact (h.summary_agree (h.record i) (hfound i rfl)).bind fun _ _ hs => .pure (.some hs)

theorem lookup_eq (h : t.Alike t') (ht : t.Sound) (hsame : t.SameEmbryos t') :
    t'.lookup = t.lookup := by
  funext now pid
  refine (Agree.eq ?_).symm
  unfold lookup
  refine (h.find_agree ht (by decide)).bind ?_
  rintro found _ ⟨rfl, hfound⟩
  cases found with
  | none => exact .same _
  | some i =>
    refine (agree_process t t' i).bind ?_
    rintro p q ⟨-, rfl, rfl⟩
    rw [h.record_eq hsame (hfound i rfl), h.summary_eq]
    exact .same _

theorem priority?_eq (h : t.Alike t') (ht : t.Sound) : t'.priority? = t.priority? := by
  funext pid
  refine (Agree.eq ?_).symm
  unfold priority?
  refine (h.find_agree ht (by decide)).bind ?_
  rintro found _ ⟨rfl, hfound⟩
  cases found with
  | none => exact .same _
  | some i =>
    refine (agree_process t t' i).bind ?_
    rintro p q ⟨-, rfl, rfl⟩
    rw [(h.record i).priority (hfound i rfl)]
    exact .same _

theorem currentPid?_eq (h : t.Alike t') : t'.currentPid? = t.currentPid? := by
  funext cpu
  unfold currentPid?
  simp only [h.occupant?_eq, h.readPid_eq]

theorem currentParentPid?_eq (h : t.Alike t') : t'.currentParentPid? = t.currentParentPid? := by
  have hparent : ∀ i, t'.process i >>= t'.parentPid = t.process i >>= t.parentPid := fun i =>
    process_bind_eq (h.parentPid_eq (h.record i))
  funext cpu
  unfold currentParentPid?
  simp only [h.occupant?_eq, hparent]

/-! ### Chains -/

theorem readyPids_eq (h : t.Alike t') : t'.readyPids = t.readyPids := by
  funext level
  unfold readyPids
  simp only [h.ready_eq, h.links_eq, h.readPid_eq]

/-- The ready levels hold processes that have started. -/
theorem levelLine_eq (h : t.Alike t') (ht : t.Sound) {level : Nat} {c : Chain}
    (hc : t.chain? (.ready level) = some c) : t'.levelLine level c = t.levelLine level c := by
  have hstage : ∀ i ∈ c.walk t.links, (t.record i).stage = .runnable := by
    intro i hi
    rw [← queue_of_chain? hc] at hi
    exact (Process.home_eq_ready_iff.1 ((ht.valid.mem_iff _ i).1 hi).2.1).1
  have hitems : (c.walk t.links).map (fun i => do
        let p ← t'.process i
        return pairText p.pid p.budget : Slot → Piece) =
      (c.walk t.links).map fun i => do
        let p ← t.process i
        return pairText p.pid p.budget :=
    List.map_congr_left fun i hi => process_bind_eq (by
      rw [(h.record i).eq_of_started (by simp [hstage i hi])])
  unfold levelLine
  rw [h.links_eq]
  simp only [hitems]

theorem dumpChains_eq (h : t.Alike t') (ht : t.Sound) : t'.dumpChains = t.dumpChains := by
  have hready : t'.readyLines = t.readyLines := by
    unfold readyLines
    rw [h.ready_eq]
    refine congrArg (List.cons _) (List.flatMap_congr fun ⟨c, level⟩ hc => h.levelLine_eq ht ?_)
    have hget := List.mem_zipIdx_iff_getElem?.1 (List.mem_reverse.1 hc)
    rwa [Vector.getElem?_toList] at hget
  have hfree : t'.freeLine = t.freeLine := h.eq_of freeLine fun _ => rfl
  have hsleeping : t'.sleepingLines = t.sleepingLines := by
    have hchain : t'.sleeping = t.sleeping := h.eq_of sleeping fun _ => rfl
    have hitem : ∀ i, (do return toString (← t'.process i).pid : Piece) =
        (do return toString (← t.process i).pid) := fun i =>
      process_bind_eq (by rw [(h.record i).pid])
    unfold sleepingLines
    simp only [hchain, h.links_eq, hitem]
  have hzombie : t'.zombieLines = t.zombieLines := by
    have hchain : t'.zombie = t.zombie := h.eq_of zombie fun _ => rfl
    have hitem : ∀ i, (do
          let p ← t'.process i
          return pairText p.pid (← t'.parentPid p) : Piece) =
        (do
          let p ← t.process i
          return pairText p.pid (← t.parentPid p)) := fun i =>
      process_bind_eq (by rw [(h.record i).pid, h.parentPid_eq (h.record i)])
    unfold zombieLines
    simp only [hchain, h.links_eq, hitem]
  funext which limit
  unfold dumpChains chainList
  rw [hready, hfree, hsleeping, hzombie]

end Alike

/-- **Twins read the same.** -/
theorem Twins.readsLike (h : t.Twins t') (ht : t.Sound) : t.ReadsLike t' where
  audit := h.audit_eq
  members := h.members_eq
  count := h.eq_of count fun _ => funext fun s => by cases s <;> rfl
  readyLen := by
    funext level
    unfold readyLen
    rw [h.ready_eq]
  readyPids := h.readyPids_eq
  find := funext fun pid => funext fun stages => h.find_eq pid stages
  priority := h.priority?_eq ht
  currentPid := h.currentPid?_eq
  currentParentPid := h.currentParentPid?_eq
  uid := by
    funext cpu
    unfold uid
    rw [h.current.eq]
  gid := by
    funext cpu
    unfold gid
    rw [h.current.eq]
  isKilled := by
    funext cpu
    unfold isKilled
    rw [h.current.eq]
  snapshot := h.snapshot_eq
  dumpChains := h.dumpChains_eq ht
  lookup := h.lookup_agree ht
  whole hsame := ⟨h.lookup_eq ht hsame, h.dump_eq hsame⟩

end Table

end FeedbackQueue
