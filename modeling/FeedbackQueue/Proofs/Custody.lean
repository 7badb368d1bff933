import FeedbackQueue.Proofs.Holdings
import FeedbackQueue.Proofs.Lineage

/-!
# Custody

Between two calls a request carries handles outside the table: the copies for a child that is still
to start, the files of a process that exits, what is left of a child that has been reaped.  A
stretch conserves handles: what the slots and the request have afterwards, together with what the
open call gives back, is what they had before together with what the answer has brought.

## Main definitions

* `Call.issued`, `Call.released` : what an answer brings, and what a call gives back.
* `Suspension.inHand` : what a request carries.
* `Suspension.Ready` : the table is as a request that waits expects it.
* `Table.Conserves` : a stretch conserves handles.

## Main statements

* `Orderly.conserves_start`, `Orderly.conserves_resume` : all stretches do.
-/

namespace FeedbackQueue

open Handle (ofStack ofSpace ofFiles)

/-- What an answer brings. -/
@[simp]
def Call.issued : (c : Call) → c.Answer → Multiset Handle
  | .allocStack, stack => ofStack stack
  | .mapImage _, space => ofSpace space
  | .copySpace _ _, space => ofSpace space
  | .duplicate _, copy => ofFiles [copy]
  | _, _ => 0

/-- What a call gives back. -/
@[simp]
def Call.released : Call → Multiset Handle
  | .freeStack stack => ofStack (some stack)
  | .freeSpace space => ofSpace (some space)
  | .close file => ofFiles [file]
  | _ => 0

namespace Suspension

/-- What a request carries, besides what its open call gives back. -/
@[simp]
def inHand : Suspension → Multiset Handle
  | duplicating _ _ space copies _ _ | duplicatingCwd _ _ space copies _ =>
    ofSpace (some space) + ofFiles copies
  | closing _ _ _ rest => ofFiles rest
  | freeingStack _ _ _ space => ofSpace space
  | _ => 0

/-- What a request that waits relies on: its embryo is one, and has no stack before it gets it, and
the process that closes its files has none left in its slot. -/
def Ready (v : View) : Suspension → Prop
  | allocating i _ => (v.record i).stage = .embryo ∧ (v.holdings i).stack = none
  | mapping i _ _ | copying i _ _ | duplicating i _ _ _ _ _ | duplicatingCwd i _ _ _ _ =>
    (v.record i).stage = .embryo
  | closing cpu _ _ _ =>
    ∃ i, v.marker cpu = some i ∧ (v.holdings i).Fileless
  | _ => True

variable {v w : View} {s : Suspension} {i : Slot}

theorem Ready.embryo (h : s.Ready v) (hi : s.slot? = some i) : (v.record i).stage = .embryo := by
  cases s <;> cases hi
  case allocating => exact h.1
  all_goals exact h

/-- A request that waits goes on finding what it relies on, if its embryo stays one with the same
stack, and the process that closes its files stays without. -/
theorem Ready.transfer (h : s.Ready v)
    (hembryo : ∀ i, s.slot? = some i → (v.record i).stage = .embryo →
      (w.record i).stage = .embryo ∧ (w.holdings i).stack = (v.holdings i).stack)
    (hcloses : ∀ cpu i, s.closes? = some cpu → v.marker cpu = some i → (v.holdings i).Fileless →
      w.marker cpu = some i ∧ (w.holdings i).Fileless) : s.Ready w := by
  cases s with
  | allocating i purpose =>
    obtain ⟨hi, hstack⟩ := hembryo i rfl h.1
    exact ⟨hi, hstack.trans h.2⟩
  | mapping i | copying i | duplicating i | duplicatingCwd i => exact (hembryo i rfl h).1
  | closing cpu =>
    obtain ⟨i, hi, hfileless⟩ := h
    exact ⟨i, hcloses cpu i rfl hi hfileless⟩
  | _ => trivial

end Suspension

namespace Progress

/-- What is left in the hands of a request. -/
@[simp]
def inHand : Progress → Multiset Handle
  | returned _ => 0
  | waiting s => s.inHand

/-- What the next call of a request gives back. -/
@[simp]
def released : Progress → Multiset Handle
  | returned _ => 0
  | waiting s => s.call.released

/-- The table is as the rest of a request expects it. -/
def Ready (v : View) : Progress → Prop
  | returned _ => True
  | waiting s => s.Ready v

/-- The embryo that the rest of a request goes on with. -/
def slot? : Progress → Option Slot
  | returned _ => none
  | waiting s => s.slot?

/-- Whether a request has ended, or waits for a CPU. -/
def isLight : Progress → Bool
  | returned _ | waiting (.switching _ _) | waiting (.enabling _ _) | waiting (.running _ _ _)
  | waiting (.idling _) => true
  | _ => false

variable {p : Progress}

theorem inHand_of_isLight (h : p.isLight = true) : p.inHand + p.released = 0 := by
  cases p with
  | returned => rfl
  | waiting s => cases s <;> trivial

theorem ready_of_isLight {v : View} (h : p.isLight = true) : p.Ready v := by
  cases p with
  | returned => trivial
  | waiting s => cases s <;> trivial

theorem slot_of_isLight (h : p.isLight = true) : p.slot? = none := by
  cases p with
  | returned => rfl
  | waiting s => cases s <;> trivial

end Progress

namespace Act

/-- Whether an act has nothing to do with what slots hold. -/
def isLight : Act → Bool
  | giveStack _ _ | discard _ | abandon _ | crown _ _ _ | launch _ _ _ _ _ | surrender _ _
  | retire _ _ _ | reap _ _ _ => false
  | _ => true

variable {P : Params} {v : View} {a : Act}

theorem careful_of_isLight (h : a.isLight = true) : a.Careful v := by
  cases a <;> trivial

theorem holdings_of_isLight (h : a.isLight = true) : (a.apply P v).holdings = v.holdings := by
  rw [apply_holdings]
  cases a <;> trivial

end Act

/-- The acts have nothing to do with what slots hold, and nothing is left to be done but to wait
for a CPU. -/
def Script.Light (S : Script) : Prop :=
  ∀ acts p, S acts p → (∀ a ∈ acts, a.isLight = true) ∧ p.isLight = true

namespace Script.Light

variable {S : Script} {a : Act} {p : Progress} {cpu : Cpu} {now : Nat}

theorem only (hp : p.isLight = true) : Light (.only p) := by
  rintro acts q ⟨rfl, rfl⟩
  exact ⟨nofun, hp⟩

theorem single (ha : a.isLight = true) (hp : p.isLight = true) : Light (.single a p) := by
  rintro acts q ⟨rfl, rfl⟩
  exact ⟨List.forall_mem_singleton.2 ha, hp⟩

theorem any {α : Type} {F : α → Script} (h : ∀ x, Light (F x)) :
    Light fun acts p => ∃ x, F x acts p := by
  rintro acts p ⟨x, hx⟩
  exact h x acts p hx

theorem either {S' : Script} (h : Light S) (h' : Light S') :
    Light fun acts p => S acts p ∨ S' acts p := by
  rintro acts p (hs | hs)
  · exact h acts p hs
  · exact h' acts p hs

theorem refusable {act : Slot → Act} (hact : ∀ i, (act i).isLight = true) :
    Light (.refusable act) :=
  either (.any fun _ => only rfl) (.any fun i => single (hact i) rfl)

theorem sleepRound {start ticks : Nat} : Light (.sleepRound cpu start ticks now) :=
  either (.any fun _ => only rfl) (.any fun _ => single rfl rfl)

theorem dispatchRound {forever : Bool} : Light (.dispatchRound cpu forever now) :=
  either (.any fun _ => single rfl rfl) (single rfl (by cases forever <;> rfl))

end Script.Light

namespace Table

variable {P : Params} {t t' : Table P} {r : Stretch P} {S : Script} {a : Act} {p : Progress}
  {i : Slot} {cpu : Cpu} {now : Nat} {mine : Slot → Prop} {given : Multiset Handle}

/-- Handles are conserved on the way from one table to another: what the slots hold, what the
request carries and what its next call gives back has been held before, or has been given.  The
table is left tidy and as the request expects it, with an embryo that it may build. -/
structure Conserved (t : Table P) (mine : Slot → Prop) (given : Multiset Handle) (p : Progress)
    (t' : Table P) : Prop where
  tidy : t'.view.Tidy
  balance : t'.view.held P + (p.inHand + p.released) = t.view.held P + given
  ready : p.Ready t'.view
  mine : ∀ i, p.slot? = some i → mine i

/-- A stretch that is given handles conserves them. -/
def Conserves (t : Table P) (mine : Slot → Prop) (given : Multiset Handle) (r : Stretch P) :
    Prop :=
  Yields False r fun (p, t') => t.Conserved mine given p t'

theorem Conserves.congr {given' : Multiset Handle} (h : t.Conserves mine given r)
    (hgiven : given = given') : t.Conserves mine given' r :=
  hgiven ▸ h

/-- A stretch without acts. -/
theorem conserves_only (ht : t.view.Tidy) (hgiven : p.inHand + p.released = given)
    (hready : p.Ready t.view) (hmine : ∀ i, p.slot? = some i → mine i) :
    t.Conserves mine given (.ok (p, t)) :=
  .ok ⟨ht, by rw [hgiven], hready, hmine⟩

/-- A stretch that goes on after an act. -/
theorem Orderly.conserves_after {g : Multiset Handle} (h : t.Orderly) (ht : t.view.Tidy)
    (he : a.Enabled t.view) (hc : a.Careful t.view) (hview : t'.view = a.apply P t.view)
    (hgiven : a.puts + g = given + a.takes t.view)
    (hr : t'.view.Tidy → t'.Conserves mine g r) : t.Conserves mine given r := by
  have hheld := h.held_apply ht he hc
  rw [← hview] at hheld
  refine (hr (hview ▸ Act.tidy_apply ht he hc)).weaken fun (p, t'') hp =>
    ⟨hp.tidy, add_right_cancel (b := a.takes t.view) ?_, hp.ready, hp.mine⟩
  rw [hp.balance, add_right_comm, hheld, add_assoc, hgiven, add_assoc]

/-- A stretch that ends with an act. -/
theorem Orderly.conserves_single (h : t.Orderly) (ht : t.view.Tidy) (he : a.Enabled t.view)
    (hc : a.Careful t.view) (hview : t'.view = a.apply P t.view)
    (hgiven : a.puts + (p.inHand + p.released) = given + a.takes t.view)
    (hready : p.Ready t'.view) (hmine : ∀ i, p.slot? = some i → mine i) :
    t.Conserves mine given (.ok (p, t')) :=
  h.conserves_after ht he hc hview hgiven fun ht' => conserves_only ht' rfl hready hmine

/-- A stretch that keeps to a light script. -/
theorem Plays.conserves (h : t.Plays r S) (hS : S.Light) (ht : t.view.Tidy) :
    t.Conserves mine 0 r := by
  refine h.weaken fun (p, t') ⟨_, acts, hfollows, hs⟩ => ?_
  obtain ⟨hacts, hp⟩ := hS acts p hs
  have hkept : t'.view.Tidy ∧ t'.view.holdings = t.view.holdings := by
    refine hfollows.preserves (I := fun v => v.Tidy ∧ v.holdings = t.view.holdings) ⟨ht, rfl⟩ ?_
    rintro v a ha he ⟨hv, hholdings⟩
    exact ⟨Act.tidy_apply hv he (Act.careful_of_isLight (hacts a ha)),
      (Act.holdings_of_isLight (hacts a ha)).trans hholdings⟩
  refine ⟨hkept.1, ?_, Progress.ready_of_isLight hp, ?_⟩
  · rw [Progress.inHand_of_isLight hp, View.held_congr hkept.2]
  · rw [Progress.slot_of_isLight hp]
    nofun

/-! ### Birth -/

theorem Orderly.conserves_allocateFor (h : t.Orderly) (ht : t.view.Tidy) {purpose : Purpose} :
    t.Conserves (fun i => (t.record i).stage = .unused) 0 (t.allocateFor purpose now) := by
  unfold allocateFor
  refine (h.yields_conceive.restrict False.elim).bind fun result hresult => ?_
  split
  · exact conserves_only ht rfl trivial nofun
  · obtain ⟨-, hhead, hstage, hview⟩ := hresult
    have hrecord := (congrArg View.record hview).trans View.conceive_record
    refine h.conserves_single (a := .conceive _ now) ht ⟨hhead, hstage⟩ trivial hview rfl ?_ ?_
    · refine ⟨?_, ?_⟩
      · rw [hrecord, Function.update_self]
        rfl
      · rw [View.holdings_of_update hrecord, Function.update_self]
        exact (ht.admits hstage).1
    · rintro i ⟨⟩
      exact hstage

theorem Orderly.conserves_abandonFork (h : t.Orderly) (ht : t.view.Tidy) :
    t.Conserves mine 0 (t.abandonFork i) := by
  unfold abandonFork
  refine (h.yields_abandon.restrict False.elim).bind ?_
  rintro ⟨stack, t'⟩ ⟨-, hstack, hstage, hview⟩
  -- the stack of the embryo is what comes back
  have htakes : (Act.abandon i).takes t.view = ofStack stack := by
    rw [hstack]
    rfl
  cases stack with
  | some stack =>
    refine h.conserves_single (a := .abandon i) ht hstage trivial hview ?_ trivial nofun
    rw [htakes]
    simp
  | none =>
    refine h.conserves_single (a := .abandon i) ht hstage trivial hview ?_ trivial nofun
    rw [htakes]
    simp

theorem Orderly.conserves_furnish (h : t.Orderly) (ht : t.view.Tidy)
    (hi : (t.record i).stage = .embryo) (hmine : ∀ j, some i = some j → mine j)
    {purpose : Purpose} :
    t.Conserves mine 0 (t.furnish i purpose) := by
  cases purpose with
  | bare => exact conserves_only ht rfl trivial nofun
  | root name image => exact conserves_only ht rfl hi hmine
  | child plan =>
    unfold furnish
    dsimp only
    cases plan.space with
    | some source => exact conserves_only ht rfl hi hmine
    | none => exact h.conserves_abandonFork ht

theorem Orderly.conserves_finishFork (h : t.Orderly) (ht : t.view.Tidy) {plan : Blueprint}
    {space : AddressSpace} (files : List FileHandle) (cwd : Option FileHandle) :
    t.Conserves mine (ofSpace (some space) + ofFiles (files ++ cwd.toList))
      (t.finishFork i plan space files cwd) := by
  unfold finishFork
  refine (h.yields_launch.restrict False.elim).bind ?_
  rintro ⟨pid, t'⟩ ⟨-, -, hstage, hview⟩
  exact h.conserves_single (a := .launch i plan space files cwd) ht hstage trivial hview rfl trivial
    nofun

theorem Orderly.conserves_duplicateFiles (h : t.Orderly) (ht : t.view.Tidy)
    (hi : (t.record i).stage = .embryo) (hmine : ∀ j, some i = some j → mine j)
    {plan : Blueprint} {space : AddressSpace} (copies : List FileHandle)
    {files : List FileHandle} :
    t.Conserves mine (ofSpace (some space) + ofFiles copies)
      (t.duplicateFiles i plan space copies files) := by
  cases files with
  | cons file rest => exact conserves_only ht (add_zero _) hi hmine
  | nil =>
    unfold duplicateFiles
    cases plan.cwd with
    | some dir => exact conserves_only ht (add_zero _) hi hmine
    | none => simpa using h.conserves_finishFork ht copies none

/-! ### Death -/

theorem Orderly.conserves_closeFiles (h : t.Orderly) (ht : t.view.Tidy) {last : Resumption}
    {files : List FileHandle} (hi : t.occupant? cpu = some i)
    (hbare : (t.view.holdings i).Fileless) :
    t.Conserves mine (ofFiles files) (t.closeFiles cpu last now files) := by
  cases files with
  | cons file rest => exact conserves_only ht (add_comm _ _) ⟨i, hi, hbare⟩ nofun
  | nil =>
    unfold closeFiles
    refine (h.yields_retire.restrict False.elim).bind ?_
    rintro t' ⟨-, j, hj, hstage, hview⟩
    cases hi.symm.trans hj
    exact h.conserves_single (a := .retire cpu i now) ht ⟨hi, hstage⟩ hbare hview rfl trivial nofun

theorem Orderly.conserves_exit (h : t.Orderly) (ht : t.view.Tidy) {last : Resumption} :
    t.Conserves mine 0 (t.exit cpu last now) := by
  unfold exit
  refine (h.yields_surrenderFiles.restrict False.elim).bind ?_
  rintro ⟨files, t'⟩ ⟨h', i, hi, hroot, hfiles, hview⟩
  have hrecord : t'.record i = { t.record i with files := [], cwd := none } :=
    record_of_revise hview
  refine h.conserves_after (a := .surrender cpu i) (g := ofFiles files) ht ⟨hi, hroot⟩ trivial
    hview ?_ fun ht' => h'.conserves_closeFiles (i := i) ht' ?_ ?_
  · rw [hfiles]
    rfl
  · exact (congrFun (congrArg View.marker hview) cpu).trans hi
  · rw [View.holdings, view_record, hrecord]
    exact ⟨rfl, rfl⟩

theorem conserves_releaseSpace (ht : t.view.Tidy) {reaper : Reaper} {pid : Pid}
    {space : Option AddressSpace} :
    t.Conserves mine (ofSpace space) (t.releaseSpace reaper pid space) := by
  cases space with
  | some space => exact conserves_only ht (zero_add _) trivial nofun
  | none => exact conserves_only ht rfl trivial nofun

theorem conserves_release (ht : t.view.Tidy) {reaper : Reaper} {remains : Remains} :
    t.Conserves mine (ofStack remains.stack + ofSpace remains.space)
      (t.release reaper remains) := by
  unfold release
  cases remains.stack with
  | some stack => exact conserves_only ht (add_comm _ _) trivial nofun
  | none => simpa using conserves_releaseSpace ht

/-- What is found by a process that looks for an exited child is released. -/
theorem Orderly.conserves_reaped (h : t.Orderly) (ht : t.view.Tidy) {me : Slot} {remains : Remains}
    {reaper : Reaper} (hme : t.occupant? cpu = some me) (hfinds : t.Finds me (.reaped remains t')) :
    t.Conserves mine 0 (do let t ← t'.settle; t.release reaper remains) := by
  obtain ⟨h', i, hreapable, -, hview, hremains⟩ := hfinds
  refine .bind_eq h'.settle_eq ?_
  refine h.conserves_after (a := .reap cpu me i) ht ⟨hme, hreapable⟩ trivial hview ?_
    fun ht' => conserves_release ht'
  rw [hremains]
  rfl

theorem Orderly.conserves_waitRound (h : t.Orderly) (ht : t.view.Tidy) :
    t.Conserves mine 0 (t.waitRound cpu now) := by
  unfold waitRound
  refine (h.yields_scan.restrict False.elim).bind ?_
  rintro result ⟨me, hme, hfinds⟩
  cases result with
  | noChildren => exact conserves_only ht rfl trivial nofun
  | reaped remains t' => exact h.conserves_reaped ht hme hfinds
  | pending =>
    refine (yields_current.restrict False.elim).bind fun me _ => ?_
    exact h.plays_park.conserves (.any fun _ => .single rfl rfl) ht

theorem Orderly.conserves_poll (h : t.Orderly) (ht : t.view.Tidy) :
    t.Conserves mine 0 (t.poll cpu) := by
  unfold poll
  refine (h.yields_scan.restrict False.elim).bind ?_
  rintro result ⟨me, hme, hfinds⟩
  cases result with
  | noChildren => exact conserves_only ht rfl trivial nofun
  | reaped remains t' => exact h.conserves_reaped ht hme hfinds
  | pending => exact conserves_only ht rfl trivial nofun

/-! ### The machine -/

/-- **Every request conserves handles.** -/
theorem Orderly.conserves_start (h : t.Orderly) (ht : t.view.Tidy) {clock : Clock} {r : Request}
    (hleft : P.audited = true → ∀ cpu handoff, r.givesBack = some (cpu, handoff) →
      ¬ t.Misused cpu handoff) :
    t.Conserves (fun i => (t.record i).stage = .unused) 0 (r.start clock t) := by
  have hplays : t.Plays (r.start clock t) (.start clock r) := h.plays_start hleft
  cases r with
  | allocate => exact h.conserves_allocateFor ht
  | boot name image =>
    unfold Request.start
    cases hroot : t.root with
    | some r => exact .error id rfl
    | none => exact h.conserves_allocateFor ht
  | fork cpu =>
    exact ((yields_blueprint h.sound).restrict False.elim).bind fun plan _ =>
      h.conserves_allocateFor ht
  | exit | terminate => exact h.conserves_exit ht
  | wait => exact h.conserves_waitRound ht
  | poll => exact h.conserves_poll ht
  | sleep | yield | switch | signal => exact hplays.conserves (.any fun _ => .single rfl rfl) ht
  | sleepFor => exact hplays.conserves .sleepRound ht
  | pass | serve => exact hplays.conserves (.only rfl) ht
  | dispatch =>
    exact hplays.conserves (.either (.only rfl) (.any fun _ => .single rfl rfl)) ht
  | kill | setPriority | setUid | setGid => exact hplays.conserves (.refusable fun _ => rfl) ht
  | reclaim | tick | rouse | sweep | sweepIfDue => exact hplays.conserves (.single rfl rfl) ht

/-- **Every request that waits conserves handles**, those of the answer included. -/
theorem Orderly.conserves_resume (h : t.Orderly) (ht : t.view.Tidy) {clock : Clock}
    {s : Suspension} {answer : s.call.Answer} (hready : s.Ready t.view)
    (hleft : P.audited = true → ∀ cpu handoff, s.givesBack answer = some (cpu, handoff) →
      ¬ t.Misused cpu handoff) :
    t.Conserves (fun i => s.slot? = some i) (s.inHand + s.call.issued answer)
      (s.resume clock t answer) := by
  have hplays : t.Plays (s.resume clock t answer) (.resume clock s answer) := h.plays_resume hleft
  cases s with
  | allocating i purpose =>
    obtain ⟨hi, hstack⟩ := hready
    cases answer with
    | some stack =>
      refine (h.yields_giveStack.restrict False.elim).bind ?_
      rintro t' ⟨h', hview⟩
      refine h.conserves_after (a := .giveStack i stack) (g := 0) ht trivial ⟨hi, hstack⟩ hview
        ?_ fun ht' => h'.conserves_furnish ht' ?_ fun _ => id
      · simp
      · rw [record_of_revise hview]
        exact hi
    | none =>
      refine (h.yields_discard.restrict False.elim).bind ?_
      rintro t' ⟨-, hstage, hview⟩
      exact h.conserves_single (a := .discard i) ht hstage hstack hview rfl trivial nofun
  | mapping i name image =>
    cases answer with
    | some space =>
      refine (h.yields_crown.restrict False.elim).bind ?_
      rintro ⟨pid, t'⟩ ⟨-, hroot, -, hstage, hview⟩
      refine h.conserves_single (a := .crown i name space) ht ⟨hroot, hstage⟩ trivial hview ?_
        trivial nofun
      simp
    | none => exact .error id rfl
  | copying i plan source =>
    cases answer with
    | some space =>
      exact (h.conserves_duplicateFiles ht hready (fun _ => id) []).congr (add_comm _ _)
    | none => exact h.conserves_abandonFork ht
  | duplicating i plan space copies file rest =>
    refine (h.conserves_duplicateFiles ht hready (fun _ => id) (copies ++ [answer])).congr ?_
    rw [Handle.ofFiles_append, ← add_assoc]
    rfl
  | duplicatingCwd i plan space copies dir =>
    refine (h.conserves_finishFork ht copies (some answer)).congr ?_
    rw [Handle.ofFiles_append, ← add_assoc]
    rfl
  | undoing | freeingSpace | idling => exact conserves_only ht rfl trivial nofun
  | closing cpu last file rest =>
    obtain ⟨i, hi, hbare⟩ := hready
    exact (h.conserves_closeFiles ht hi hbare).congr (add_zero _).symm
  | switching cpu resumption =>
    cases resumption with
    | exit | proceed => exact hplays.conserves (.only rfl) ht
    | terminate => exact .error id rfl
    | wait => exact h.conserves_waitRound ht
    | sleepFor => exact hplays.conserves .sleepRound ht
  | freeingStack => exact (conserves_releaseSpace ht).congr (add_zero _).symm
  | enabling => exact hplays.conserves .dispatchRound ht
  | running cpu handoff forever =>
    exact hplays.conserves (.single rfl (by cases forever <;> rfl)) ht

end Table

end FeedbackQueue
