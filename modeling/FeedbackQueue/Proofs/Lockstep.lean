import FeedbackQueue.Proofs.Dispatch
import FeedbackQueue.Proofs.Twins

/-!
# Operations on twins

Every operation of a table has the same result on twins and leaves twins, or ends in the same
fault.  Where it writes the level, the budget or the clock of a process, or hands out its owner, the
stage of the slot has been checked before, or the slot is on a CPU, so that the two records are the
same; and a new process gets a level, a budget, clock readings and an owner of its own before it
starts.

A promotion sweep reads levels all over the table.  It changes the records of active processes only,
and these are the same in both tables; as sound tables are known by their views, twins are left.

## Main statements

* `Twins.leave`, `Twins.wake`, `Twins.kill` : leaving a CPU, waking and killing.
* `Twins.sweep`, `Twins.setPriority` : levels.
* `Twins.dispatch`, `Twins.reclaim` : taking and giving back a CPU.
* `Twins.conceive`, `Twins.launch`, `Twins.retire`, `Twins.scan` : birth, death and reaping.
-/

namespace FeedbackQueue

namespace Process.Twin

variable {p q : Process}

/-! ### Records

What is written does not depend on what is left over. -/

theorem kill (h : p.Twin q) :
    Process.Twin { p with killed := true } { q with killed := true } := by
  cases h <;> constructor <;> assumption

theorem assign (h : p.Twin q) {priority : Nat} {budget : Int} :
    Process.Twin { p with priority, budget } { q with priority, budget } := by
  cases h <;> constructor <;> assumption

theorem giveStack (h : p.Twin q) {stack : Option KernelStack} :
    Process.Twin { p with stack } { q with stack } := by
  cases h <;> constructor <;> assumption

theorem adopt (h : p.Twin q) {parent : Option Slot} :
    Process.Twin { p with parent } { q with parent } := by
  cases h <;> constructor <;> assumption

theorem shrink (h : p.Twin q) : Process.Twin { p with size := 0 } { q with size := 0 } := by
  cases h <;> constructor <;> assumption

theorem forget (h : p.Twin q) : p.forget.Twin q.forget := by
  cases h <;> constructor <;> assumption

theorem strip (h : p.Twin q) :
    Process.Twin { p with stack := none, space := none }
      { q with stack := none, space := none } := by
  cases h <;> constructor <;> assumption

/-- The root process has an owner of its own. -/
theorem crown (h : p.Twin q) {name : String} {space : AddressSpace} :
    (p.crown name space).Twin (q.crown name space) := by
  cases h with
  | same | embryo => exact .same _
  | unused hs => exact .unused (p := p.crown name space) hs ..

/-- A child has the owner of its parent. -/
theorem launch (h : p.Twin q) {plan : Blueprint} {space : AddressSpace} {files : List FileHandle}
    {cwd : Option FileHandle} :
    (p.launch plan space files cwd).Twin (q.launch plan space files cwd) := by
  cases h with
  | same | embryo => exact .same _
  | unused hs => exact .unused (p := p.launch plan space files cwd) hs ..

/-- A slot that is taken keeps the owner of the process before. -/
theorem conceive (h : p.Twin q) {P : Params} {pid : Pid} {now : Nat} :
    (p.conceive P pid now).Twin (q.conceive P pid now) := by
  cases h with
  | same => exact .same _
  | embryo | unused => exact .embryo rfl ..

/-- A slot that is free shows nothing that it has not shown before. -/
theorem free (h : p.Twin q) : (p.enter .unused).Twin (q.enter .unused) := by
  cases h with
  | same => exact .same _
  | embryo | unused => exact .unused rfl ..

/-- A sweep leaves free slots and processes that are being built alone. -/
theorem sweep {P : Params} (h : p.Twin q) :
    (if p.stage.isActive then p.promote P else p).Twin
      (if q.stage.isActive then q.promote P else q) := by
  by_cases hactive : p.stage.isActive
  · rw [h.eq_of_started (by constructor <;> intro hs <;> rw [hs] at hactive <;> cases hactive)]
    exact .same _
  · rw [if_neg hactive, if_neg (h.stage ▸ hactive)]
    exact h

end Process.Twin

namespace Table

/-- A value with a table, and the same value with its twin. -/
def Beside {P : Params} {α : Type} (x x' : α × Table P) : Prop := x.1 = x'.1 ∧ x.2.Twins x'.2

/-- Sound tables with the same view but for their records differ in their records only. -/
theorem Sound.exists_procs {P : Params} {t t' : Table P} (h : t.Sound) (h' : t'.Sound)
    (hview : t'.view = { t.view with record := t'.record }) : ∃ procs, t' = { t with procs } := by
  have hprocs : view { t with procs := t'.procs } = t'.view := hview.symm
  have hsound : Sound { t with procs := t'.procs } :=
    ⟨h.threaded.of_eq rfl rfl, hprocs ▸ h'.valid⟩
  exact ⟨t'.procs, hsound.eq_of_view_eq h' hprocs.symm⟩

namespace Twins

variable {P : Params} {t t' : Table P} {i : Slot} {cpu : Cpu} {now : Nat}

/-! ### Leaving a CPU -/

theorem depart (h : t.Twins t') : Agree Twins (t.depart cpu now) (t'.depart cpu now) := by
  unfold Table.depart
  refine h.occupant.bind ?_
  rintro i _ ⟨rfl, -, hsame⟩
  refine (agree_process t t' i).bind ?_
  rintro p q ⟨-, rfl, rfl⟩
  rw [← hsame]
  refine .ite (fun _ => .error _) fun _ => .bind_eq rfl fun cpuTicks => ?_
  exact .bind (h.revise_same hsame fun _ => id) fun u u' hu => hu.1.settle

/-- Leaving a CPU with a change that keeps the level. -/
theorem leave (h : t.Twins t') {change : Process → Process}
    (hchange : ∀ p, (change p).priority = p.priority) :
    Agree Twins (t.leave cpu now change) (t'.leave cpu now change) := by
  unfold Table.leave
  refine h.occupant.bind ?_
  rintro i _ ⟨rfl, -, -⟩
  refine (h.unlist_started (by decide)).bind ?_
  rintro u u' ⟨hu, hsame⟩
  refine .bind (hu.revise_same hsame fun _ => Nat.le_trans Process.charge_priority_le) ?_
  rintro v v' ⟨hv, hsame'⟩
  refine .bind (hv.revise_same hsame' fun p => (hchange p).symm ▸ id) ?_
  rintro w w' ⟨hw, -⟩
  exact hw.enlist.bind fun _ _ hx => hx.1.depart

theorem yield (h : t.Twins t') : Agree Twins (t.yield cpu now) (t'.yield cpu now) :=
  h.leave fun _ => rfl

theorem park (h : t.Twins t') {channel : Channel} :
    Agree Twins (t.park cpu channel now) (t'.park cpu channel now) :=
  h.leave fun _ => rfl

/-! ### Waking -/

theorem rouse (h : t.Twins t') : Agree Twins (t.rouse i) (t'.rouse i) := by
  unfold Table.rouse
  refine (h.unlist_started (by decide)).bind ?_
  rintro u u' ⟨hu, hsame⟩
  refine .bind (hu.revise_same hsame fun _ => id) ?_
  rintro v v' ⟨hv, -⟩
  exact hv.enlist.mono fun _ _ => And.left

theorem wake (h : t.Twins t') (channel : Channel) :
    Agree Beside (t.wake channel) (t'.wake channel) := by
  unfold Table.wake
  rw [h.sleepers_eq]
  refine .bind_eq rfl fun slots => .bind (.foldlM h fun i _ u u' hu => hu.rouse) fun u u' hu => ?_
  exact .pure ⟨rfl, hu⟩

theorem signal (h : t.Twins t') (channel : Channel) :
    Agree Beside (t.signal channel) (t'.signal channel) := by
  unfold Table.signal
  refine (h.wake channel).bind ?_
  rintro ⟨woken, u⟩ ⟨_, u'⟩ ⟨rfl, hu⟩
  exact hu.settle.bind fun v v' hv => .pure ⟨rfl, hv⟩

theorem tick (h : t.Twins t') : Agree Twins t.tick t'.tick := by
  unfold Table.tick
  exact (h.signal .ticks).bind fun _ _ hx => .pure hx.2

theorem wakeParent (h : t.Twins t') {p q : Process} (hpq : p.Twin q) :
    Agree Twins (t.wakeParent p) (t'.wakeParent q) := by
  unfold Table.wakeParent
  rw [hpq.parent]
  split
  · refine (agree_process t t' _).bind ?_
    rintro p q ⟨-, rfl, rfl⟩
    rw [(h.record _).pid]
    exact (h.wake _).bind fun _ _ hx => .pure hx.2
  · exact .pure h

/-- The end of an operation that may be refused. -/
theorem answer (h : t.Twins t') :
    Agree (Agree Twins) (do return .ok (← t.settle) : Except Fault (Except Refusal (Table P)))
      (do return .ok (← t'.settle)) :=
  h.settle.bind fun _ _ hu => .pure (.ok hu)

theorem kill (h : t.Twins t') (pid : Pid) : Agree (Agree Twins) (t.kill pid) (t'.kill pid) := by
  unfold Table.kill
  rw [h.find_eq]
  refine .bind_eq rfl fun found => ?_
  cases found with
  | none => exact .pure (.error _)
  | some i =>
    refine .bind (h.revise (h.record i).kill fun _ => id) ?_
    rintro u u' ⟨hu, -⟩
    refine (agree_process u u' i).bind ?_
    rintro p q ⟨-, rfl, rfl⟩
    rw [(hu.record i).stage]
    exact .ite (fun _ => hu.rouse.bind fun _ _ hv => hv.answer)
      fun _ => .bind (.pure hu) fun _ _ hv => hv.answer

/-! ### Levels -/

/-- A sweep changes the records of active processes only. -/
theorem sweep (h : t.Twins t') (ht : t.Sound) (ht' : t'.Sound) (hlevels : P.maxPriority < word32) :
    Agree Twins t.sweep t'.sweep := by
  obtain ⟨u, e, hu, hview⟩ := ht.yields_sweep.exists_ok hlevels
  obtain ⟨u', e', hu', hview'⟩ := ht'.yields_sweep.exists_ok hlevels
  have hrecord : ∀ i, u.record i =
      if (t.record i).stage.isActive then (t.record i).promote P else t.record i :=
    congrFun (congrArg View.record hview)
  have hrecord' : ∀ i, u'.record i =
      if (t'.record i).stage.isActive then (t'.record i).promote P else t'.record i :=
    congrFun (congrArg View.record hview')
  have helsewhere : ∃ procs, u' = { u with procs } := by
    refine hu.exists_procs hu' ?_
    obtain ⟨procs, rfl⟩ := h.elsewhere
    rw [← view_record, hview, hview']
    rfl
  have hserving : ∀ cpu i, u.occupant? cpu = some i → u.record i = u'.record i := by
    intro cpu i hi
    have hmarker : u.occupant? = t.occupant? := congrArg View.marker hview
    rw [hmarker] at hi
    rw [hrecord, hrecord', h.serving cpu i hi]
  rw [e, e']
  refine .ok ⟨⟨helsewhere, fun i => ?_⟩, hu.valid.priority_le, hu'.valid.priority_le, hserving⟩
  rw [hrecord, hrecord']
  exact (h.record i).sweep

theorem sweepIfDue (h : t.Twins t') (ht : t.Sound) (ht' : t'.Sound)
    (hlevels : P.maxPriority < word32) :
    Agree Twins (t.sweepIfDue now) (t'.sweepIfDue now) := by
  unfold Table.sweepIfDue
  rw [h.eq_of sweepAt fun _ => rfl]
  refine .ite (fun _ => ?_) fun _ => .pure h
  refine (h.sweep ht ht' hlevels).bind fun u u' hu => .bind_eq rfl fun sweepAt => .pure ?_
  obtain ⟨procs, rfl⟩ := hu.elsewhere
  exact hu.of_eq ⟨procs, rfl⟩ rfl rfl fun _ _ => id

theorem setPriority (h : t.Twins t') {pid : Pid} {priority : Nat} :
    Agree (Agree Twins) (t.setPriority pid priority) (t'.setPriority pid priority) := by
  unfold Table.setPriority
  rw [h.find_eq]
  refine .ite (fun _ => .pure (.error _)) fun hpriority => .bind_eq rfl fun found => ?_
  cases found with
  | none => exact .pure (.error _)
  | some i =>
    refine (agree_process t t' i).bind ?_
    rintro p q ⟨-, rfl, rfl⟩
    have hle : priority ≤ P.maxPriority := Nat.le_of_not_lt hpriority
    have hmoves : ((t'.record i).stage = .runnable ∧ (t'.record i).priority ≠ priority) ↔
        (t.record i).stage = .runnable ∧ (t.record i).priority ≠ priority := by
      rw [← (h.record i).stage]
      refine and_congr_right fun hs => ?_
      rw [(h.record i).eq_of_started (by simp [hs])]
    dsimp only
    by_cases hmove : (t.record i).stage = .runnable ∧ (t.record i).priority ≠ priority
    · rw [if_pos hmove, if_pos (hmoves.2 hmove)]
      refine (h.unlist_started (by decide)).bind ?_
      rintro u u' ⟨hu, hsame⟩
      refine .bind (hu.revise_same hsame fun _ _ => hle) ?_
      rintro v v' ⟨hv, -⟩
      exact hv.enlist.bind fun _ _ hw => hw.1.answer
    · rw [if_neg hmove, if_neg (mt hmoves.1 hmove)]
      refine .bind (h.revise (h.record i).assign fun _ _ => hle) ?_
      rintro u u' ⟨hu, -⟩
      exact hu.answer

/-! ### Dispatching -/

/-- A CPU is marked with a slot whose records are the same. -/
theorem mark (h : t.Twins t') (hcpu : cpu < P.cpus) (hi : t.record i = t'.record i) :
    Twins { t with markers := t.markers.set cpu (some i) hcpu }
      { t' with markers := t'.markers.set cpu (some i) hcpu } := by
  have hview := view_setMarkers t (some i) hcpu
  obtain ⟨procs, rfl⟩ := h.elsewhere
  refine ⟨⟨⟨procs, rfl⟩, h.record⟩, h.priority_le, h.priority_le', fun cpu' j hj => ?_⟩
  rw [← view_marker, hview, View.mark_marker, Function.update_apply] at hj
  split at hj
  · cases hj
    exact hi
  · exact h.serving cpu' j hj

theorem dispatch (h : t.Twins t') :
    Agree (Option.Rel Beside) (t.dispatch cpu now) (t'.dispatch cpu now) := by
  have hnext : t'.next? = t.next? := by
    unfold next?
    rw [h.members_eq, h.isMarked_eq]
  unfold Table.dispatch
  rw [h.occupant?_eq, hnext]
  cases t.occupant? cpu with
  | some busy =>
    refine (agree_process t t' busy).bind ?_
    rintro p q ⟨-, rfl, rfl⟩
    rw [(h.record busy).pid]
    exact .error _
  | none =>
    change Agree _ (if h : cpu < P.cpus then _ else _) (if h : cpu < P.cpus then _ else _)
    by_cases hcpu : cpu < P.cpus
    · rw [dif_pos hcpu, dif_pos hcpu]
      cases t.next? with
      | none => exact .pure .none
      | some i =>
        refine (h.unlist_started (by decide)).bind ?_
        rintro u u' ⟨hu, hsame⟩
        refine .bind (hu.revise_same hsame fun _ => id) ?_
        rintro v v' ⟨hv, hsame'⟩
        refine hv.enlist.bind ?_
        rintro w w' ⟨hw, hrecord, hrecord'⟩
        have hsame'' : w.record i = w'.record i := by rw [hrecord, hrecord', hsame']
        refine (agree_process w w' i).bind ?_
        rintro p q ⟨-, rfl, rfl⟩
        rw [hsame'']
        exact (hw.mark hcpu hsame'').settle.bind fun _ _ hx => .pure (.some ⟨rfl, hx⟩)
    · rw [dif_neg hcpu, dif_neg hcpu]
      exact .error _

theorem vacate (h : t.Twins t') {handoff : Handoff} :
    Agree Twins (t.vacate cpu handoff) (t'.vacate cpu handoff) := by
  have hvacant : Twins { t with markers := t.markers.setIfInBounds cpu none }
      { t' with markers := t'.markers.setIfInBounds cpu none } := by
    obtain ⟨procs, rfl⟩ := h.elsewhere
    refine h.of_eq ⟨procs, rfl⟩ rfl rfl fun cpu' i hi => ?_
    unfold occupant? at hi ⊢
    dsimp only at hi
    rw [Vector.getElem?_setIfInBounds] at hi
    split at hi
    · split at hi <;> cases hi
    · exact hi
  unfold Table.vacate
  rw [h.occupant?_eq]
  refine .ite (fun _ => .error _) fun _ => (agree_process _ _ _).bind ?_
  rintro p q ⟨-, rfl, rfl⟩
  have hslot := hvacant.record handoff.slot
  rw [hslot.stage]
  exact .ite (fun _ => hvacant.wakeParent hslot) fun _ => .pure hvacant

/-- Taking a CPU back. -/
theorem reclaim (h : t.Twins t') (ht : t.Sound) (ht' : t'.Sound) (hlevels : P.maxPriority < word32)
    {handoff : Handoff} :
    Agree Twins (t.reclaim cpu handoff now) (t'.reclaim cpu handoff now) := by
  rw [reclaim_eq, reclaim_eq, withdraw_eq, withdraw_eq]
  refine Agree.bind (R := Twins) (h.vacate.tagged.bind ?_) fun _ _ hv => hv.settle
  rintro u u' ⟨hu, e, e'⟩
  exact hu.sweepIfDue (ht.yields_vacate.of_ok e).2.1 (ht'.yields_vacate.of_ok e').2.1 hlevels

theorem rest (h : t.Twins t') (ht : t.Sound) (ht' : t'.Sound) (hlevels : P.maxPriority < word32) :
    Agree Twins (t.rest now) (t'.rest now) :=
  (h.sweepIfDue ht ht' hlevels).bind fun _ _ hu => hu.settle

/-! ### Birth -/

theorem takePid (h : t.Twins t') : Agree Beside t.takePid t'.takePid := by
  obtain ⟨procs, rfl⟩ := h.elsewhere
  unfold Table.takePid
  refine .bind_eq rfl fun nextPid => .pure ⟨rfl, ?_⟩
  exact h.of_eq ⟨procs, rfl⟩ rfl rfl fun _ _ => id

/-- Taking a free slot writes level, budget and clock readings, but no owner. -/
theorem conceive (h : t.Twins t') :
    Agree (Option.Rel Beside) (t.conceive now) (t'.conceive now) := by
  unfold Table.conceive
  rw [h.eq_of unused fun _ => rfl]
  cases t.unused.head with
  | none => exact .pure .none
  | some i =>
    refine h.unlist.bind ?_
    rintro u u' ⟨hu, -⟩
    refine hu.takePid.bind ?_
    rintro ⟨pid, v⟩ ⟨_, v'⟩ ⟨rfl, hv⟩
    refine .bind (hv.revise (hv.record i).conceive fun _ _ => Nat.le_refl _) ?_
    rintro w w' ⟨hw, -⟩
    exact hw.enlist.bind fun _ _ hx => hx.1.settle.bind fun _ _ hy => .pure (.some ⟨rfl, hy⟩)

theorem giveStack (h : t.Twins t') {stack : KernelStack} :
    Agree Twins (t.giveStack i stack) (t'.giveStack i stack) := by
  unfold Table.giveStack
  exact .mono (h.revise (h.record i).giveStack fun _ => id) fun _ _ => And.left

theorem discard (h : t.Twins t') : Agree Twins (t.discard i) (t'.discard i) := by
  unfold Table.discard
  refine .bind (h.revise (h.record i).forget fun _ => id) ?_
  rintro u u' ⟨hu, -⟩
  exact (hu.move fun _ => (hu.record i).free).bind fun _ _ hv => hv.settle

theorem abandon (h : t.Twins t') : Agree Beside (t.abandon i) (t'.abandon i) := by
  unfold Table.abandon
  refine (agree_process t t' i).bind ?_
  rintro p q ⟨-, rfl, rfl⟩
  refine .bind (h.revise (h.record i).giveStack fun _ => id) ?_
  rintro u u' ⟨hu, -⟩
  exact hu.discard.bind fun _ _ hv => .pure ⟨(h.record i).stack, hv⟩

/-- An embryo that has been given its owner starts. -/
theorem start (h : t.Twins t') (huid : (t.record i).uid = (t'.record i).uid)
    (hgid : (t.record i).gid = (t'.record i).gid) :
    Agree Twins (t.move i .embryo .runnable) (t'.move i .embryo .runnable) := by
  refine h.move fun hs => ?_
  rw [(h.record i).eq_of_owner hs huid hgid]
  exact .same _

theorem crown (h : t.Twins t') {name : String} {space : AddressSpace} :
    Agree Beside (t.crown i name space) (t'.crown i name space) := by
  unfold Table.crown
  rw [h.root_eq]
  refine .ite (fun _ => .error _) fun _ => .bind (h.revise (h.record i).crown fun _ => id) ?_
  rintro u u' ⟨hu, hi, hi'⟩
  refine (agree_process u u' i).bind ?_
  rintro p q ⟨-, rfl, rfl⟩
  have hv : Twins { u with root := some i } { u' with root := some i } := by
    obtain ⟨procs, rfl⟩ := hu.elsewhere
    exact hu.of_eq ⟨procs, rfl⟩ rfl rfl fun _ _ => id
  have huid : (u.record i).uid = (u'.record i).uid := by rw [hi, hi']
  have hgid : (u.record i).gid = (u'.record i).gid := by rw [hi, hi']
  refine (hv.start huid hgid).bind fun _ _ hw => hw.settle.bind fun _ _ hx => .pure ⟨?_, hx⟩
  exact (hu.record i).pid

/-- What a child takes over is that of a process on a CPU. -/
theorem blueprint (h : t.Twins t') : Agree Eq (t.blueprint cpu) (t'.blueprint cpu) := by
  unfold Table.blueprint
  refine h.occupant.bind ?_
  rintro i _ ⟨rfl, -, hsame⟩
  refine (agree_process t t' i).bind ?_
  rintro p q ⟨-, rfl, rfl⟩
  rw [hsame]
  exact .same _

theorem launch (h : t.Twins t') {plan : Blueprint} {space : AddressSpace} {files : List FileHandle}
    {cwd : Option FileHandle} :
    Agree Beside (t.launch i plan space files cwd) (t'.launch i plan space files cwd) := by
  unfold Table.launch
  refine .bind (h.revise (h.record i).launch fun _ => id) ?_
  rintro u u' ⟨hu, hi, hi'⟩
  refine (agree_process u u' i).bind ?_
  rintro p q ⟨-, rfl, rfl⟩
  have huid : (u.record i).uid = (u'.record i).uid := by rw [hi, hi']
  have hgid : (u.record i).gid = (u'.record i).gid := by rw [hi, hi']
  refine (hu.start huid hgid).bind fun _ _ hv => hv.settle.bind fun _ _ hw => .pure ⟨?_, hw⟩
  exact (hu.record i).pid

/-! ### Death -/

theorem surrenderFiles (h : t.Twins t') :
    Agree Beside (t.surrenderFiles cpu) (t'.surrenderFiles cpu) := by
  unfold Table.surrenderFiles
  rw [h.root_eq]
  refine h.occupant.bind ?_
  rintro i _ ⟨rfl, -, hsame⟩
  refine .ite (fun _ => .error _) fun _ => (agree_process t t' i).bind ?_
  rintro p q ⟨-, rfl, rfl⟩
  rw [hsame]
  refine .bind (h.revise_same hsame fun _ => id) ?_
  rintro u u' ⟨hu, -⟩
  exact .pure ⟨rfl, hu⟩

theorem adopt (h : t.Twins t') {rootPid : Option Pid} {stage : Stage} {child : Slot} :
    Agree Twins (t.adopt i rootPid stage child) (t'.adopt i rootPid stage child) := by
  unfold Table.adopt
  rw [h.root_eq]
  refine (agree_process t t' child).bind ?_
  rintro p q ⟨-, rfl, rfl⟩
  rw [(h.record child).parent]
  refine .ite (fun _ => .pure h) fun _ => .bind (h.revise (h.record child).adopt fun _ => id) ?_
  rintro u u' ⟨hu, -⟩
  split
  · exact (hu.wake _).bind fun _ _ hx => .pure hx.2
  · exact .pure hu

theorem adoptChildren (h : t.Twins t') : Agree Twins (t.adoptChildren i) (t'.adoptChildren i) := by
  unfold Table.adoptChildren
  simp only [h.root_eq, h.readPid_eq]
  refine .bind_eq rfl fun rootPid => .foldlM h fun stage _ u u' hu => ?_
  rw [hu.members_eq]
  exact .foldlM hu fun child _ v v' hv => hv.adopt

theorem retire (h : t.Twins t') : Agree Twins (t.retire cpu now) (t'.retire cpu now) := by
  unfold Table.retire
  refine h.occupant.bind ?_
  rintro i _ ⟨rfl, -, -⟩
  refine (agree_process t t' i).bind ?_
  rintro p q ⟨-, rfl, rfl⟩
  refine (h.wakeParent (h.record i)).bind fun u u' hu => hu.adoptChildren.bind fun v v' hv => ?_
  refine (hv.move fun hs => ?_).bind fun w w' hw => ?_
  · rw [(hv.record i).eq_of_started (by simp [hs])]
    exact .same _
  · exact .bind (hw.revise (hw.record i).shrink fun _ => id) fun _ _ hx => hx.1.depart

/-! ### Reaping -/

theorem reap (h : t.Twins t') : Agree Beside (t.reap i) (t'.reap i) := by
  unfold Table.reap
  refine (agree_process t t' i).bind ?_
  rintro p q ⟨-, rfl, rfl⟩
  refine .bind (h.revise (h.record i).strip.forget fun _ => id) ?_
  rintro u u' ⟨hu, -⟩
  refine (hu.move fun _ => (hu.record i).free).bind fun v v' hv => .pure ⟨?_, hv⟩
  rw [(h.record i).pid, (h.record i).stack, (h.record i).space]

end Twins

end Table

/-- Two scans with one result, which leave twins. -/
inductive Scan.Twin {P : Params} : Scan P → Scan P → Prop
  | reaped (remains : Remains) {t t' : Table P} (h : t.Twins t') :
      Twin (.reaped remains t) (.reaped remains t')
  | pending : Twin .pending .pending
  | noChildren : Twin .noChildren .noChildren

namespace Table.Twins

variable {P : Params} {t t' : Table P} {cpu : Cpu}

theorem scan (h : t.Twins t') : Agree Scan.Twin (t.scan cpu) (t'.scan cpu) := by
  unfold Table.scan
  refine h.occupant.bind ?_
  rintro me _ ⟨rfl, -, hsame⟩
  simp only [h.members_eq, h.isMarked_eq, h.isChild_eq]
  refine .bind_eq rfl fun found => ?_
  cases found with
  | some i =>
    refine h.reap.bind ?_
    rintro ⟨remains, u⟩ ⟨_, u'⟩ ⟨rfl, hu⟩
    exact .pure (.reaped remains hu)
  | none =>
    have hwaits : ∀ hasChild : Bool, Agree Scan.Twin
        (do
          if !hasChild then return .noChildren
          if (← t.process me).killed then return .noChildren
          return .pending : Except Fault (Scan P))
        (do
          if !hasChild then return .noChildren
          if (← t'.process me).killed then return .noChildren
          return .pending) := by
      refine fun _ => .ite (fun _ => .pure .noChildren) fun _ => (agree_process t t' me).bind ?_
      rintro p q ⟨-, rfl, rfl⟩
      rw [hsame]
      exact .ite (fun _ => .pure .noChildren) fun _ => .pure .pending
    exact .bind_eq rfl fun _ => .ite (fun _ => hwaits true) fun _ => .bind_eq rfl hwaits

/-! ### Owners -/

theorem setUid (h : t.Twins t') {uid : Nat} :
    Agree (Agree Twins) (t.setUid cpu uid) (t'.setUid cpu uid) := by
  unfold Table.setUid
  refine .ite (fun _ => .pure (.error _)) fun _ => h.occupant.bind ?_
  rintro i _ ⟨rfl, -, hsame⟩
  exact .bind (h.revise_same hsame fun _ => id) fun _ _ hu => .pure (.ok hu.1)

theorem setGid (h : t.Twins t') {gid : Nat} :
    Agree (Agree Twins) (t.setGid cpu gid) (t'.setGid cpu gid) := by
  unfold Table.setGid
  refine .ite (fun _ => .pure (.error _)) fun _ => h.occupant.bind ?_
  rintro i _ ⟨rfl, -, hsame⟩
  exact .bind (h.revise_same hsame fun _ => id) fun _ _ hu => .pure (.ok hu.1)

end Table.Twins
end FeedbackQueue
