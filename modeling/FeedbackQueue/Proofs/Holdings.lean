import FeedbackQueue.Proofs.Lives
import Mathlib.Algebra.BigOperators.Group.Finset.Piecewise
import Mathlib.Algebra.Order.Group.Multiset
import Mathlib.Tactic.Abel

/-!
# What slots hold

Stacks, address spaces and files belong to the surrounding machine, and a slot records those that
its process uses.  Few acts change what a slot holds, and each of them changes it for one slot only:
`Act.deal` says how, and `Act.apply_holdings` that nothing else happens.

A table is *tidy* when a free slot holds nothing, an embryo holds a stack at most, and a process
that has exited holds no files any more.

## Main definitions

* `Handle` : something that the surrounding machine hands out.
* `Process.Lasting` : a part of a record that scheduling does not touch.
* `Holdings`, `View.holdings`, `View.held` : what a process, the slots, all slots together hold.
* `Act.deal` : what an act does to the holdings.
* `View.Tidy` : nobody holds more than its phase admits.

## Main statements

* `Act.lasting_apply` : most acts leave such a part alone.
* `Act.apply_holdings` : acts do to the holdings what `Act.deal` says.
* `Act.tidy_apply` : a careful act leaves a tidy view tidy.
* `Table.Orderly.held_apply` : what all slots hold together after an act.
-/

namespace FeedbackQueue

/-- Something that the surrounding machine hands out and takes back. -/
inductive Handle where
  /-- A kernel stack. -/
  | stack (s : KernelStack)
  /-- An address space. -/
  | space (s : AddressSpace)
  /-- A reference to a file or directory. -/
  | file (f : FileHandle)
  deriving DecidableEq, Repr

namespace Handle

/-- The file of a handle. -/
def file? : Handle → Option FileHandle
  | file f => some f
  | _ => none

/-- The handle of a stack, if there is one. -/
def ofStack (s : Option KernelStack) : Multiset Handle := s.toList.map stack

/-- The handle of an address space, if there is one. -/
def ofSpace (s : Option AddressSpace) : Multiset Handle := s.toList.map space

/-- The handles of files. -/
def ofFiles (fs : List FileHandle) : Multiset Handle := fs.map file

@[simp] theorem ofStack_none : ofStack none = 0 := rfl
@[simp] theorem ofSpace_none : ofSpace none = 0 := rfl
@[simp] theorem ofFiles_nil : ofFiles [] = 0 := rfl

@[simp] theorem ofFiles_append {fs gs : List FileHandle} :
    ofFiles (fs ++ gs) = ofFiles fs + ofFiles gs := by
  simp [ofFiles]

end Handle

open Handle (ofStack ofSpace ofFiles)

/-- What a process holds. -/
@[ext]
structure Holdings where
  /-- Its kernel stack. -/
  stack : Option KernelStack := none
  /-- Its address space. -/
  space : Option AddressSpace := none
  /-- Its open files. -/
  files : List FileHandle := []
  /-- Its working directory. -/
  cwd : Option FileHandle := none
  deriving DecidableEq, Repr

/-- The handles of holdings. -/
def Holdings.handles (h : Holdings) : Multiset Handle :=
  ofStack h.stack + ofSpace h.space + ofFiles (h.files ++ h.cwd.toList)

/-- There are no files among the holdings. -/
def Holdings.Fileless (h : Holdings) : Prop := h.files = [] ∧ h.cwd = none

/-- What a process holds. -/
def Process.holdings (p : Process) : Holdings := ⟨p.stack, p.space, p.files, p.cwd⟩

/-- A process holds a handle. -/
def Process.Holds (p : Process) : Handle → Prop
  | .stack s => p.stack = some s
  | .space s => p.space = some s
  | .file f => f ∈ p.files ∨ p.cwd = some f

theorem Process.mem_handles {p : Process} {x : Handle} :
    x ∈ p.holdings.handles ↔ p.Holds x := by
  cases x <;> simp [Holdings.handles, holdings, Holds, ofStack, ofSpace, ofFiles]

/-- The files among the handles. -/
theorem Holdings.filterMap_handles {h : Holdings} :
    h.handles.filterMap Handle.file? = ↑(h.files ++ h.cwd.toList) := by
  have hstack : (ofStack h.stack).filterMap Handle.file? = 0 := by cases h.stack <;> rfl
  have hspace : (ofSpace h.space).filterMap Handle.file? = 0 := by cases h.space <;> rfl
  rw [handles, Multiset.filterMap_add, Multiset.filterMap_add, hstack, hspace, zero_add, zero_add,
    ofFiles, Multiset.filterMap_coe, List.filterMap_map]
  exact congrArg _ (List.filterMap_some ..)

/-! ### What lasts -/

/-- A part of a record that lasts while its process is scheduled and its family changes. -/
structure Process.Lasting {α : Type} (g : Process → α) : Prop where
  eq : ∀ (p : Process) pid stage priority budget parent startedAt cpuTicks dispatchedAt channel
    killed uid gid size, g { p with
      pid, stage, priority, budget, parent, startedAt, cpuTicks, dispatchedAt, channel, killed, uid
      gid, size } = g p

theorem Process.lasting_holdings : Lasting holdings := ⟨by intros; rfl⟩

section Lasting

variable {α : Type} {g : Process → α} {P : Params} {v w : View} {i j : Slot} {now : Nat}

/-- A change of one record changes the parts of this record only. -/
theorem View.parts_of_update {p : Process} (h : w.record = Function.update v.record i p) :
    (fun j => g (w.record j)) = Function.update (fun j => g (v.record j)) i (g p) := by
  rw [h]
  exact Function.comp_update g v.record i p

/-- A change of one record that leaves a part of it alone. -/
theorem View.part_of_update {p : Process} (h : w.record = Function.update v.record i p)
    (hp : g p = g (v.record i)) : g (w.record j) = g (v.record j) := by
  rw [h, Function.update_apply]
  split
  · subst j
    exact hp
  · rfl

variable (hg : Process.Lasting g)
include hg

namespace View

theorem lasting_wakeParent {p : Process} : g ((v.wakeParent p).record j) = g (v.record j) := by
  obtain ⟨_, _, e⟩ := v.wakeParent_record_eq (p := p) (i := j)
  rw [e]
  exact hg.eq ..

/-- A charge comes first when a process leaves its CPU, and concerns level and budget. -/
theorem lasting_leave {f : Process → Process} (hf : ∀ p, g (f p) = g p) :
    g ((v.leave P i now f).record j) = g (v.record j) := by
  refine part_of_update leave_record ?_
  obtain ⟨_, _, e, -⟩ := (v.record i).charge_eq P.budget now
  calc g ((f ((v.record i).charge P.budget now)).bill now)
      = g (f ((v.record i).charge P.budget now)) := hg.eq ..
    _ = g ((v.record i).charge P.budget now) := hf _
    _ = g (v.record i) := by
      rw [e]
      exact hg.eq ..

theorem lasting_sweep : g ((v.sweep P).record j) = g (v.record j) := by
  obtain ⟨_, _, e⟩ := (v.record j).promote_eq (P := P)
  unfold sweep
  dsimp only
  split
  · rw [e]
    exact hg.eq ..
  · rfl

theorem lasting_sweepIfDue : g ((v.sweepIfDue P now).record j) = g (v.record j) := by
  unfold sweepIfDue
  split
  · exact lasting_sweep hg (v := v)
  · rfl

theorem lasting_reclaim {cpu : Cpu} : g ((v.reclaim P cpu i now).record j) = g (v.record j) := by
  unfold reclaim
  rw [lasting_sweepIfDue hg]
  split
  · exact lasting_wakeParent hg
  · rfl

theorem lasting_kill : g ((v.kill i).record j) = g (v.record j) := by
  have hkill : g ((v.revise i fun p => { p with killed := true }).record j) = g (v.record j) :=
    part_of_update (v.revise_record i _) (hg.eq ..)
  unfold kill
  dsimp only
  split
  · exact (part_of_update (shift_record _ i Process.awaken) (hg.eq ..)).trans hkill
  · exact hkill

end View

/-- Whether an act leaves alone what lasts. -/
def Act.isPassing : Act → Bool
  | giveStack _ _ | discard _ | abandon _ | crown _ _ _ | launch _ _ _ _ _ | surrender _ _
  | reap _ _ _ => false
  | _ => true

/-- **What lasts changes in few acts.** -/
theorem Act.lasting_apply {a : Act} (ha : a.isPassing = true) :
    g ((a.apply P v).record j) = g (v.record j) := by
  cases a with
  | conceive => exact View.part_of_update View.conceive_record (hg.eq ..)
  | copy => rfl
  | retire cpu i now =>
    obtain ⟨_, _, _, _, _, e, -⟩ := v.retire_record_eq (P := P) i j now
    rw [apply, e]
    exact hg.eq ..
  | await | park | yield =>
    rw [apply]
    exact View.lasting_leave hg fun _ => hg.eq ..
  | depart | setUid | setGid =>
    rw [apply]
    exact View.part_of_update (View.revise_record ..) (hg.eq ..)
  | dispatch _ _ now =>
    exact View.part_of_update (v.shift_record _ (Process.dispatch now)) (hg.eq ..)
  | rouse i => exact View.part_of_update (v.shift_record i Process.awaken) (hg.eq ..)
  | reclaim => exact View.lasting_reclaim hg
  | sweep => exact View.lasting_sweep hg
  | sweepIfDue => exact View.lasting_sweepIfDue hg
  | wake c =>
    obtain ⟨_, _, e⟩ := v.wake_record_eq (c := c) (i := j)
    rw [apply, e]
    exact hg.eq ..
  | kill => exact View.lasting_kill hg
  | assign => exact View.part_of_update View.assign_record (hg.eq ..)
  | giveStack | discard | abandon | crown | launch | surrender | reap => cases ha

end Lasting

/-! ### Views -/

namespace View

variable {P : Params} {v : View} {i : Slot} {f : Process → Process}

/-- What the slots hold. -/
def holdings (v : View) : Slot → Holdings := fun i => (v.record i).holdings

/-- What all slots of a table hold together. -/
def held (P : Params) (v : View) : Multiset Handle :=
  ∑ i ∈ Finset.range P.capacity, (v.holdings i).handles

/-! ### Changes -/

theorem holdings_of_update {w : View} {p : Process}
    (h : w.record = Function.update v.record i p) :
    w.holdings = Function.update v.holdings i p.holdings :=
  parts_of_update (g := Process.holdings) h

theorem revise_holdings :
    (v.revise i f).holdings = Function.update v.holdings i (f (v.record i)).holdings :=
  holdings_of_update rfl

/-- A change of one record that leaves its holdings alone. -/
theorem holdings_eq_of_update {w : View} {p : Process}
    (h : w.record = Function.update v.record i p) (hp : p.holdings = (v.record i).holdings) :
    w.holdings = v.holdings :=
  funext fun _ => part_of_update h hp

/-! ### Sums -/

/-- One slot gives the handles `x` away and gets the handles `y`. -/
theorem held_of_update {w : View} {h : Holdings} {x y : Multiset Handle} (hi : i < P.capacity)
    (hw : w.holdings = Function.update v.holdings i h)
    (hxy : h.handles + x = (v.holdings i).handles + y) : w.held P + x = v.held P + y := by
  have hmem : i ∈ Finset.range P.capacity := Finset.mem_range.2 hi
  have hnew : w.held P =
      h.handles + ∑ j ∈ Finset.range P.capacity \ {i}, (v.holdings j).handles := by
    rw [← Finset.sum_update_of_mem hmem (fun j => (v.holdings j).handles) h.handles]
    refine Finset.sum_congr rfl fun j _ => ?_
    rw [hw]
    exact Function.apply_update (fun _ => Holdings.handles) v.holdings i h j
  have hold : v.held P =
      (v.holdings i).handles + ∑ j ∈ Finset.range P.capacity \ {i}, (v.holdings j).handles := by
    rw [← Finset.sum_update_of_mem hmem, Function.update_eq_self]
    rfl
  rw [hnew, hold, add_right_comm, hxy, add_right_comm]

/-- A handle that is held once is with one slot. -/
theorem exists_of_count_held {x : Handle} (h : (v.held P).count x = 1) :
    ∃ i, x ∈ (v.holdings i).handles ∧
      ∀ j < P.capacity, x ∈ (v.holdings j).handles → j = i := by
  have hmem : x ∈ v.held P := Multiset.count_pos.1 (by omega)
  obtain ⟨i, hi, hx⟩ := Multiset.mem_sum.1 hmem
  refine ⟨i, hx, fun j hj hxj => ?_⟩
  by_contra hji
  have hsplit := congrArg (Multiset.count x)
    (Finset.add_sum_erase (Finset.range P.capacity) (fun j => (v.holdings j).handles) hi)
  have hone : 0 < (v.holdings i).handles.count x := Multiset.count_pos.2 hx
  have htwo : 0 < (∑ k ∈ (Finset.range P.capacity).erase i, (v.holdings k).handles).count x :=
    Multiset.count_pos.2 (Multiset.mem_sum.2 ⟨j, by simp [hji, hj], hxj⟩)
  rw [Multiset.count_add] at hsplit
  change _ = (v.held P).count x at hsplit
  omega

theorem held_congr {w : View} (h : w.holdings = v.holdings) : w.held P = v.held P := by
  unfold held
  rw [h]

end View

/-- The files that all slots have open. -/
def Table.files {P : Params} (t : Table P) : Multiset FileHandle :=
  ∑ i ∈ Finset.range P.capacity, ↑((t.record i).files ++ (t.record i).cwd.toList)

theorem Table.filterMap_held {P : Params} {t : Table P} :
    (t.view.held P).filterMap Handle.file? = t.files := by
  refine Finset.sum_hom_rel (r := fun (xs : Multiset Handle) ys => xs.filterMap Handle.file? = ys)
    rfl ?_
  rintro i xs _ rfl
  rw [Multiset.filterMap_add, Holdings.filterMap_handles]
  rfl

/-! ### Phases -/

/-- What a process may hold in a phase. -/
def Stage.Phase.Admits : Phase → Holdings → Prop
  | free, h => h.stack = none ∧ h.space = none ∧ h.Fileless
  | unborn, h => h.space = none ∧ h.Fileless
  | alive, _ => True
  | dead, h => h.Fileless

/-- Files may be taken away in any phase. -/
theorem Stage.Phase.Admits.surrender {phase : Phase} {h : Holdings} (hadmits : phase.Admits h) :
    phase.Admits { h with files := [], cwd := none } := by
  cases phase with
  | free => exact ⟨hadmits.1, hadmits.2.1, rfl, rfl⟩
  | unborn => exact ⟨hadmits.1, rfl, rfl⟩
  | alive => trivial
  | dead => exact ⟨rfl, rfl⟩

namespace View

variable {P : Params} {v w : View} {i : Slot}

/-- No slot holds more than its phase admits. -/
def Tidy (v : View) : Prop := ∀ i, (v.record i).stage.phase.Admits (v.holdings i)

/-- A change that leaves phases and holdings alone. -/
theorem Tidy.congr (h : v.Tidy) (hphase : ∀ i, (w.record i).stage.phase = (v.record i).stage.phase)
    (hholdings : w.holdings = v.holdings) : w.Tidy := by
  intro i
  rw [hphase, hholdings]
  exact h i

/-- A change of one record. -/
theorem Tidy.of_update {p : Process} (h : v.Tidy) (hw : w.record = Function.update v.record i p)
    (hp : p.stage.phase.Admits p.holdings) : w.Tidy := by
  intro j
  rw [holdings, hw, Function.update_apply]
  split
  · exact hp
  · exact h j

/-- What a slot may hold in its stage. -/
theorem Tidy.admits {s : Stage} (h : v.Tidy) (hi : (v.record i).stage = s) :
    s.phase.Admits (v.holdings i) :=
  hi ▸ h i

/-- Who holds something is in use. -/
theorem Tidy.stage_ne {x : Handle} (h : v.Tidy) (hx : (v.record i).Holds x) :
    (v.record i).stage ≠ .unused := by
  intro hi
  obtain ⟨hstack, hspace, hfiles, hcwd⟩ := h.admits hi
  change (v.record i).stack = none at hstack
  change (v.record i).space = none at hspace
  change (v.record i).files = [] at hfiles
  change (v.record i).cwd = none at hcwd
  cases x <;> simp [Process.Holds, hstack, hspace, hfiles, hcwd] at hx

end View

namespace Act

variable {P : Params} {v : View} {a : Act} {i j : Slot}

/-- What an act does to the holdings. -/
def deal (h : Slot → Holdings) : Act → Slot → Holdings
  | giveStack i stack => Function.update h i { h i with stack := some stack }
  | abandon i => Function.update h i { h i with stack := none }
  | crown i _ space => Function.update h i { h i with space := some space }
  | launch i _ space files cwd =>
    Function.update h i { h i with space := some space, files, cwd }
  | surrender _ i => Function.update h i { h i with files := [], cwd := none }
  | reap _ _ i => Function.update h i { h i with stack := none, space := none }
  | _ => h

/-- **Acts do nothing else to the holdings.** -/
theorem apply_holdings : (a.apply P v).holdings = a.deal v.holdings := by
  have hpassing : a.isPassing = true → (a.apply P v).holdings = v.holdings := fun ha =>
    funext fun _ => lasting_apply Process.lasting_holdings ha
  cases a with
  | giveStack | surrender =>
    rw [apply]
    exact View.revise_holdings
  | discard => exact View.holdings_eq_of_update View.discard_record rfl
  | abandon => exact View.holdings_of_update View.abandon_record
  | crown =>
    refine (View.holdings_of_update View.crown_record).trans ?_
    simp only [deal, Process.holdings, Process.crown, Process.rename, Process.enter, View.holdings]
  | launch => exact View.holdings_of_update View.launch_record
  | reap => exact View.holdings_of_update View.reap_record
  | _ => exact hpassing rfl

/-- What it takes for an act to lose no handle: a stack goes to an embryo without one, an embryo
without a stack is freed, and a process without files exits. -/
def Careful (v : View) : Act → Prop
  | giveStack i _ => (v.record i).stage = .embryo ∧ (v.holdings i).stack = none
  | discard i => (v.holdings i).stack = none
  | retire _ i _ => (v.holdings i).Fileless
  | _ => True

theorem tidy_apply (h : v.Tidy) (he : a.Enabled v) (hc : a.Careful v) : (a.apply P v).Tidy := by
  -- most calm acts have nothing to do with holdings
  have hcalm : a.isCalm = true → a.deal v.holdings = v.holdings → (a.apply P v).Tidy :=
    fun hcalm hdeal => h.congr (fun i => ((calm_apply he hcalm).2 i).phase)
      (apply_holdings.trans hdeal)
  cases a with
  | conceive i now => exact h.of_update View.conceive_record (h.admits he.2).2
  | giveStack i stack =>
    refine h.of_update (v.revise_record ..) ?_
    rw [show ({ v.record i with stack := some stack } : Process).stage = .embryo from hc.1]
    exact h.admits hc.1
  | discard i => exact h.of_update View.discard_record ⟨hc, h.admits he⟩
  | abandon i => exact h.of_update View.abandon_record ⟨rfl, h.admits he⟩
  | crown i name space => exact h.of_update View.crown_record trivial
  | launch i plan space files cwd => exact h.of_update View.launch_record trivial
  | surrender cpu i => exact h.of_update (v.revise_record ..) (h i).surrender
  | retire cpu i now =>
    intro j
    obtain ⟨_, _, stage, _, _, e, hphase, -⟩ := v.retire_record_eq (P := P) i j now
    rw [apply_holdings]
    change ((v.retire P i now).record j).stage.phase.Admits (v.holdings j)
    rw [show ((v.retire P i now).record j).stage = stage by rw [e], hphase]
    split
    · subst j
      exact hc
    · exact h j
  | reap cpu me i => exact h.of_update View.reap_record ⟨rfl, rfl, h.admits he.2.1⟩
  | _ => exact hcalm rfl rfl

/-- What an act puts into a slot. -/
@[simp]
def puts : Act → Multiset Handle
  | giveStack _ stack => ofStack (some stack)
  | crown _ _ space => ofSpace (some space)
  | launch _ _ space files cwd => ofSpace (some space) + ofFiles (files ++ cwd.toList)
  | _ => 0

/-- What an act takes out of a slot. -/
@[simp]
def takes (v : View) : Act → Multiset Handle
  | abandon i => ofStack (v.holdings i).stack
  | surrender _ i => ofFiles ((v.holdings i).files ++ (v.holdings i).cwd.toList)
  | reap _ _ i => ofStack (v.holdings i).stack + ofSpace (v.holdings i).space
  | _ => 0

end Act

/-- What all slots hold after an act. -/
theorem Table.Orderly.held_apply {P : Params} {t : Table P} {a : Act} (h : t.Orderly)
    (ht : t.view.Tidy) (he : a.Enabled t.view) (hc : a.Careful t.view) :
    (a.apply P t.view).held P + a.takes t.view = t.view.held P + a.puts := by
  have hdeal := Act.apply_holdings (P := P) (v := t.view) (a := a)
  cases a with
  | giveStack i stack =>
    refine View.held_of_update (lt_of_stage_eq hc.1) hdeal ?_
    simp only [Holdings.handles, Act.takes, Act.puts, hc.2, Handle.ofStack_none]
    abel
  | abandon i =>
    refine View.held_of_update (lt_of_stage_eq he) hdeal ?_
    simp only [Holdings.handles, Act.takes, Act.puts, Handle.ofStack_none]
    abel
  | crown i name space =>
    refine View.held_of_update (lt_of_stage_eq he.2) hdeal ?_
    simp only [Holdings.handles, Act.takes, Act.puts, (ht.admits he.2).1, Handle.ofSpace_none]
    abel
  | launch i plan space files cwd =>
    obtain ⟨hspace, hfiles, hcwd⟩ := ht.admits he
    refine View.held_of_update (lt_of_stage_eq he) hdeal ?_
    simp only [Holdings.handles, Act.takes, Act.puts, hspace, hfiles, hcwd, Handle.ofSpace_none,
      Option.toList_none, List.append_nil, Handle.ofFiles_nil]
    abel
  | surrender cpu i =>
    refine View.held_of_update (h.sound.valid.marker_lt cpu i he.1) hdeal ?_
    simp only [Holdings.handles, Act.takes, Act.puts, Option.toList_none, List.append_nil,
      Handle.ofFiles_nil, add_zero]
  | reap cpu me i =>
    refine View.held_of_update (lt_of_stage_eq he.2.1) hdeal ?_
    simp only [Holdings.handles, Act.takes, Act.puts, Handle.ofStack_none, Handle.ofSpace_none]
    abel
  | _ => exact congrArg (· + 0) (View.held_congr hdeal)

end FeedbackQueue
