import FeedbackQueue.Proofs.Alone
import FeedbackQueue.Proofs.Blanks
import FeedbackQueue.Proofs.Pids

/-!
# Forks

A fork that is left alone succeeds, or leaves the table almost as it was.  It takes the first free
slot and a pid; then stack, address space and files come from calls.  If a call fails, the slot goes
to the end of the free ones with next to nothing left in it, and a stack goes back.  If none fails,
nothing in the record of the child is left over from before.

## Main definitions

* `Process.child`, `Process.undone` : the record of a child, and of the slot of a fork that failed.
* `View.take` : the view once the first free slot has been taken for a process.
* `Table.Forked` : what a fork that is left alone does.

## Main statements

* `Machine.forked_of_history` : forks are all or nothing.
-/

namespace FeedbackQueue

/-! ### The view -/

namespace Process

/-- The record of a child of the process `p` in slot `me`. -/
def child (P : Params) (pid : Pid) (me : Slot) (p : Process) (now : Nat) (stack : KernelStack)
    (space : AddressSpace) (files : List FileHandle) (cwd : Option FileHandle) : Process where
  pid
  stage := .runnable
  priority := P.maxPriority
  budget := P.budget
  parent := some me
  startedAt := now
  cpuTicks := 0
  dispatchedAt := 0
  channel := none
  killed := false
  uid := p.uid
  gid := p.gid
  name := p.name
  size := p.size
  callResult := 0
  stack := some stack
  space := some space
  files
  cwd

/-- The record of a slot that a fork has taken and given back. -/
def undone (P : Params) (now : Nat) (p : Process) : Process :=
  { p with
    pid := nobody, priority := P.maxPriority, budget := P.budget, parent := none, startedAt := now
    cpuTicks := 0, dispatchedAt := 0, channel := none, killed := false, name := "", size := 0
    callResult := 0, stack := none, space := none }

end Process

namespace View

variable {P : Params} {v : View} {i j : Slot} {f g : Process → Process} {p q : Process}
  {rest : List Slot}

/-- Two moves of a slot in turn, where it has not been at the place between. -/
theorem shift_shift (h : i ∉ (v.drop i).queue (f (v.record i)).home) :
    (v.shift i f).shift i g = v.shift i fun p => g (f p) := by
  have hrecord : (v.shift i f).record i = f (v.record i) := by simp
  have hdrop : ((v.shift i f).drop i).queue = (v.drop i).queue := by
    have hqueue : (v.shift i f).queue = Function.update (v.drop i).queue (f (v.record i)).home
        ((v.drop i).queue (f (v.record i)).home ++ [i]) := by
      simp [shift, append]
    have herase : ((v.drop i).queue (f (v.record i)).home ++ [i]).erase i =
        (v.drop i).queue (f (v.record i)).home := by
      rw [List.erase_append_right _ h]
      simp
    unfold drop at hqueue herase ⊢
    simp only [hrecord, hqueue, Function.update_self, Function.update_idem, herase,
      Function.update_eq_self]
  refine View.ext (by simp) ?_ rfl rfl rfl rfl
  simp only [shift, append, revise_queue, revise_record, Function.update_self] at hdrop ⊢
  rw [hdrop]
  simp

/-- A change in place of a slot that stays at home, after it has moved. -/
theorem revise_shift (h : (g (f (v.record i))).home = (f (v.record i)).home) :
    (v.shift i f).revise i g = v.shift i fun p => g (f p) := by
  refine View.ext (by simp) ?_ rfl rfl rfl rfl
  simp [shift, append, h]

/-- The view once a slot has been taken, with a pid, for a process. -/
def take (i : Slot) (p : Process) (v : View) : View :=
  { v.shift i fun _ => p with nextPid := v.nextPid + 1 }

@[simp] theorem take_record : (v.take i p).record = Function.update v.record i p := rfl

theorem revise_take (h : (g p).home = p.home) : (v.take i p).revise i g = v.take i (g p) := by
  have hrevise : (v.shift i fun _ => p).revise i g = v.shift i fun _ => g p := revise_shift h
  exact congrArg (fun w : View => { w with nextPid := v.nextPid + 1 }) hrevise

theorem shift_take (h : i ∉ (v.drop i).queue p.home) : (v.take i p).shift i g = v.take i (g p) := by
  have hshift : (v.shift i fun _ => p).shift i g = v.shift i fun _ => g p := shift_shift h
  exact congrArg (fun w : View => { w with nextPid := v.nextPid + 1 }) hshift

theorem discard_take (h : i ∉ (v.drop i).queue p.home) :
    (v.take i p).discard i = v.take i (p.forget.enter .unused) := by
  rw [discard, revise_take (Process.home_congr rfl fun _ => rfl), shift_take]
  exact h

theorem abandon_take (h : i ∉ (v.drop i).queue p.home) :
    (v.take i p).abandon i = v.take i ({ p with stack := none }.forget.enter .unused) := by
  rw [abandon, revise_take (Process.home_congr rfl fun _ => rfl), discard_take]
  exact h

theorem launch_take {plan : Blueprint} {space : AddressSpace} {files : List FileHandle}
    {cwd : Option FileHandle} (h : i ∉ (v.drop i).queue p.home) :
    (v.take i p).launch i plan space files cwd =
      v.take i ((p.launch plan space files cwd).enter .runnable) := by
  rw [launch, revise_take (Process.home_congr rfl fun _ => rfl), shift_take]
  exact h

/-- The view with the first of the free slots at their end, a pid spent, and another record. -/
def giveBack (i : Slot) (rest : List Slot) (p : Process) (v : View) : View :=
  { v with
    record := Function.update v.record i p
    queue := Function.update v.queue (.stage .unused) (rest ++ [i])
    nextPid := v.nextPid + 1 }

/-- The view with the first of the free slots at the end of a ready level, and another record. -/
def start (i : Slot) (rest : List Slot) (p : Process) (v : View) : View :=
  { v with
    record := Function.update v.record i p
    queue := Function.update (Function.update v.queue (.stage .unused) rest) (.ready p.priority)
      (v.queue (.ready p.priority) ++ [i])
    nextPid := v.nextPid + 1 }

section Taken

variable (hstage : (v.record i).stage = .unused) (hqueue : v.queue (.stage .unused) = i :: rest)
include hstage hqueue

theorem drop_queue_of_unused :
    (v.drop i).queue = Function.update v.queue (.stage .unused) rest := by
  simp [drop, (Process.home_eq_stage_iff (by simp)).2 hstage, hqueue]

theorem take_eq_giveBack (hp : p.stage = .unused) : v.take i p = v.giveBack i rest p := by
  refine View.ext rfl ?_ rfl rfl rfl rfl
  have hhome : p.home = .stage .unused := (Process.home_eq_stage_iff (by simp)).2 hp
  have hdrop := drop_queue_of_unused hstage hqueue
  simp [take, giveBack, shift, append, hhome, hdrop]

theorem take_eq_start (hp : p.stage = .runnable) : v.take i p = v.start i rest p := by
  refine View.ext rfl ?_ rfl rfl rfl rfl
  have hdrop := drop_queue_of_unused hstage hqueue
  simp [take, start, shift, append, Process.home_runnable hp, hdrop]

end Taken

end View

/-- A duplicate of a file. -/
structure Copy where
  /-- The file. -/
  file : FileHandle
  /-- The other reference to it. -/
  copy : FileHandle
  /-- The reading of the clock at which the fork goes on. -/
  now : Nat

/-- The reply that brings a duplicate. -/
def Copy.reply (c : Copy) : Reply := ⟨.duplicate c.file, c.copy, c.now⟩

namespace Table

variable {P : Params} {t₀ t : Table P} {me j : Slot} {rest : List Slot} {p : Process} {cpu : Cpu}
  {now : Nat} {Q : List Reply → Ending P → Prop} {replies : List Reply}

/-! ### The end of a fork -/

/-- What a fork of the process in slot `me`, begun at `now` and left alone, does: its calls with
their answers, in order, and its end. -/
inductive Forked (t : Table P) (me : Slot) (now : Nat) : List Reply → Ending P → Prop
  /-- Where no slot is free it makes no call and leaves the table alone. -/
  | full : t.Full → Forked t me now [] (.ok (.created (.error .outOfProcesses), t))
  /-- No stack is allocated. -/
  | noStack {j : Slot} {rest : List Slot} {n : Nat} {t' : Table P} :
      t.queue (.stage .unused) = j :: rest →
      t'.view = t.view.giveBack j rest ((t.record j).undone P now) →
      Forked t me now [⟨.allocStack, none, n⟩] (.ok (.created (.error .resourceExhausted), t'))
  /-- There is no address space to copy. -/
  | noSpace {j : Slot} {rest : List Slot} {stack : KernelStack} {n₁ n₂ : Nat} {t' : Table P} :
      t.queue (.stage .unused) = j :: rest → (t.record me).space = none →
      t'.view = t.view.giveBack j rest ((t.record j).undone P now) →
      Forked t me now [⟨.allocStack, some stack, n₁⟩, ⟨.freeStack stack, (), n₂⟩]
        (.ok (.created (.error .resourceExhausted), t'))
  /-- The address space is not copied. -/
  | noCopy {j : Slot} {rest : List Slot} {stack : KernelStack} {source : AddressSpace}
      {n₁ n₂ n₃ : Nat} {t' : Table P} :
      t.queue (.stage .unused) = j :: rest → (t.record me).space = some source →
      t'.view = t.view.giveBack j rest ((t.record j).undone P now) →
      Forked t me now [⟨.allocStack, some stack, n₁⟩,
        ⟨.copySpace source (t.record me).size, none, n₂⟩, ⟨.freeStack stack, (), n₃⟩]
        (.ok (.created (.error .resourceExhausted), t'))
  /-- The child starts. -/
  | child {j : Slot} {rest : List Slot} {stack : KernelStack} {source space : AddressSpace}
      {n₁ n₂ : Nat} {copies : List Copy} {dir : Option Copy} {t' : Table P} :
      t.queue (.stage .unused) = j :: rest → (t.record me).space = some source →
      copies.map Copy.file = (t.record me).files → dir.map Copy.file = (t.record me).cwd →
      t'.view = t.view.start j rest ((t.record me).child P t.nextPid me now stack space
        (copies.map Copy.copy) (dir.map Copy.copy)) →
      Forked t me now (⟨.allocStack, some stack, n₁⟩ ::
        ⟨.copySpace source (t.record me).size, some space, n₂⟩ ::
          (copies ++ dir.toList).map Copy.reply)
        (.ok (.created (.ok t.nextPid), t'))

/-- What a child of the process in a slot takes over. -/
def plan (t : Table P) (me : Slot) : Blueprint where
  parent := me
  space := (t.record me).space
  size := (t.record me).size
  uid := (t.record me).uid
  gid := (t.record me).gid
  name := (t.record me).name
  files := (t.record me).files
  cwd := (t.record me).cwd

theorem Sound.blueprint_eq_ok (h : t.Sound) (hme : t.occupant? cpu = some me) :
    t.blueprint cpu = .ok (t.plan me) := by
  unfold blueprint occupant
  rw [hme]
  change (t.process me >>= _) = _
  rw [process_of_lt (h.valid.marker_lt cpu me hme)]
  rfl

/-! ### Stretches -/

/-- The first free slot, taken for a process that is being built, in the table `t₀` of before. -/
structure Builds (t₀ : Table P) (j : Slot) (p : Process) (t : Table P) : Prop where
  orderly : t.Orderly
  view : t.view = t₀.view.take j p
  embryo : p.stage = .embryo

namespace Builds

theorem record (h : t₀.Builds j p t) : t.record j = p := by
  rw [← view_record, h.view, View.take_record, Function.update_self]

theorem lt_and_embryo (h : t₀.Builds j p t) : j < P.capacity ∧ (t.record j).stage = .embryo := by
  have hstage : (t.record j).stage = .embryo := h.record ▸ h.embryo
  exact ⟨lt_of_stage_eq hstage, hstage⟩

theorem giveStack (h : t₀.Builds j p t) (stack : KernelStack) :
    ∃ t', t.giveStack j stack = .ok t' ∧ t₀.Builds j { p with stack := some stack } t' := by
  have hgive : Yields _ (t.giveStack j stack) _ := h.orderly.yields_giveStack
  obtain ⟨t', e, h', hview⟩ := hgive.exists_ok h.lt_and_embryo.1
  refine ⟨t', e, h', ?_, h.embryo⟩
  rw [hview, h.view, View.revise_take (Process.home_congr rfl fun _ => rfl)]

section Ends

variable (h₀ : t₀.Sound) (hqueue : t₀.queue (.stage .unused) = j :: rest)
include h₀ hqueue

theorem stage_of_queue : (t₀.record j).stage = .unused := by
  have hmem : j ∈ t₀.queue (.stage .unused) := by simp [hqueue]
  exact (Process.home_eq_stage_iff (by simp)).1 ((h₀.valid.mem_iff _ _).1 hmem).2.1

/-- The slot is on the chain of embryos since it has been taken. -/
theorem not_mem_queue (h : t₀.Builds j p t) : j ∉ (t₀.view.drop j).queue p.home := by
  have hstage := stage_of_queue h₀ hqueue
  have hhome : p.home = .stage .embryo := (Process.home_eq_stage_iff (by simp)).2 h.embryo
  rw [View.drop_queue_of_unused hstage hqueue, hhome, Function.update_of_ne (by simp)]
  intro hmem
  have hembryo := (Process.home_eq_stage_iff (by simp)).1 ((h₀.valid.mem_iff _ _).1 hmem).2.1
  cases hstage.symm.trans hembryo

theorem discard (h : t₀.Builds j p t) :
    ∃ t', t.discard j = .ok t' ∧ t'.view = t₀.view.giveBack j rest (p.forget.enter .unused) := by
  obtain ⟨t', e, -, -, hview⟩ := h.orderly.yields_discard.exists_ok h.lt_and_embryo
  refine ⟨t', e, ?_⟩
  rw [hview, h.view, View.discard_take (h.not_mem_queue h₀ hqueue),
    View.take_eq_giveBack (stage_of_queue h₀ hqueue) hqueue rfl]

theorem abandon (h : t₀.Builds j p t) : ∃ t', t.abandon j = .ok (p.stack, t') ∧
    t'.view = t₀.view.giveBack j rest ({ p with stack := none }.forget.enter .unused) := by
  obtain ⟨⟨stack, t'⟩, e, -, hstack, -, hview⟩ :=
    h.orderly.yields_abandon.exists_ok h.lt_and_embryo
  refine ⟨t', ?_, ?_⟩
  · rw [e, hstack, h.record]
  · rw [hview, h.view, View.abandon_take (h.not_mem_queue h₀ hqueue),
      View.take_eq_giveBack (stage_of_queue h₀ hqueue) hqueue rfl]

theorem launch (h : t₀.Builds j p t) (plan : Blueprint) (space : AddressSpace)
    (files : List FileHandle) (cwd : Option FileHandle) :
    ∃ t', t.launch j plan space files cwd = .ok (p.pid, t') ∧
      t'.view = t₀.view.start j rest ((p.launch plan space files cwd).enter .runnable) := by
  have hlaunch : Yields _ (t.launch j plan space files cwd) _ := h.orderly.yields_launch
  obtain ⟨⟨pid, t'⟩, e, -, hpid, -, hview⟩ := hlaunch.exists_ok h.lt_and_embryo
  refine ⟨t', ?_, ?_⟩
  · rw [e, hpid, h.record]
  · rw [hview, h.view, View.launch_take (h.not_mem_queue h₀ hqueue),
      View.take_eq_start (stage_of_queue h₀ hqueue) hqueue rfl]

/-- A fork that gives up frees its stack. -/
theorem alone_abandonFork (h : t₀.Builds j p t) {stack : KernelStack}
    (hstack : p.stack = some stack)
    (hQ : ∀ n t', t'.view = t₀.view.giveBack j rest
        ({ p with stack := none }.forget.enter .unused) →
      Q (replies ++ [⟨.freeStack stack, (), n⟩])
        (.ok (.created (.error .resourceExhausted), t'))) :
    Alone Q replies (t.abandonFork j) := by
  obtain ⟨t', e, hview⟩ := h.abandon h₀ hqueue
  unfold abandonFork
  rw [e, hstack]
  exact .waiting fun _ clock => .returned (hQ clock.now t' hview)

theorem alone_finishFork (h : t₀.Builds j p t) {plan : Blueprint} {space : AddressSpace}
    {files : List FileHandle} {cwd : Option FileHandle}
    (hQ : ∀ t', t'.view = t₀.view.start j rest
        ((p.launch plan space files cwd).enter .runnable) →
      Q replies (.ok (.created (.ok p.pid), t'))) :
    Alone Q replies (t.finishFork j plan space files cwd) := by
  obtain ⟨t', e, hview⟩ := h.launch h₀ hqueue plan space files cwd
  unfold finishFork
  rw [e]
  exact .returned (hQ t' hview)

/-- The files of the parent are duplicated one after the other, the working directory last. -/
theorem alone_duplicateFiles (h : t₀.Builds j p t) {plan : Blueprint} {space : AddressSpace}
    {files : List FileHandle} (copies : List Copy)
    (hQ : ∀ (more : List Copy) (dir : Option Copy) t', more.map Copy.file = files →
      dir.map Copy.file = plan.cwd → t'.view = t₀.view.start j rest
        ((p.launch plan space ((copies ++ more).map Copy.copy) (dir.map Copy.copy)).enter
          .runnable) →
      Q (replies ++ (more ++ dir.toList).map Copy.reply) (.ok (.created (.ok p.pid), t'))) :
    Alone Q replies (t.duplicateFiles j plan space (copies.map Copy.copy) files) := by
  induction files generalizing copies replies with
  | cons file files ih =>
    refine .waiting fun copy clock => ?_
    have hcopies : copies.map Copy.copy ++ [copy] =
        (copies ++ [(⟨file, copy, clock.now⟩ : Copy)]).map Copy.copy := by
      simp
    change Alone Q _ (t.duplicateFiles j plan space (copies.map Copy.copy ++ [copy]) files)
    rw [hcopies]
    refine ih _ fun more dir t' hmore hdir hview => ?_
    rw [List.append_assoc] at hview
    have hend := hQ (⟨file, copy, clock.now⟩ :: more) dir t' (by simp [hmore]) hdir hview
    rwa [List.append_assoc]
  | nil =>
    unfold duplicateFiles
    cases hcwd : plan.cwd with
    | some dir =>
      refine .waiting fun copy clock => h.alone_finishFork h₀ hqueue fun t' hview => ?_
      exact hQ [] (some ⟨dir, copy, clock.now⟩) t' rfl (by simp [hcwd]) (by simpa using hview)
    | none =>
      refine h.alone_finishFork h₀ hqueue fun t' hview => ?_
      simpa using hQ [] none t' rfl (by simp [hcwd]) (by simpa using hview)

end Ends

end Builds

/-- What is left in the slot of a fork that failed. -/
theorem undone_eq {p : Process} (hstage : p.stage = .unused) (hp : p.Blank) (P : Params)
    (pid : Pid) (now : Nat) : (p.conceive P pid now).forget.enter .unused = p.undone P now ∧
      { p.conceive P pid now with stack := none }.forget.enter .unused = p.undone P now := by
  have hstack := hp.stack (Stage.phase_eq_free.2 hstage)
  have hspace := hp.space (.inl (Stage.phase_eq_free.2 hstage))
  cases p
  subst hstage hstack hspace
  exact ⟨rfl, rfl⟩

/-- A fork that has come by its stack. -/
theorem Builds.alone_furnish (h₀ : t.Sound) (hqueue : t.queue (.stage .unused) = j :: rest)
    {stack : KernelStack} {n : Nat} {t₁ : Table P}
    (h : t.Builds j { (t.record j).conceive P t.nextPid now with stack := some stack } t₁)
    (hundone : { (t.record j).conceive P t.nextPid now with stack := none }.forget.enter .unused =
      (t.record j).undone P now) :
    Alone (t.Forked me now) [⟨.allocStack, some stack, n⟩]
      (t₁.furnish j (.child (t.plan me))) := by
  have hback : ∀ {t' : Table P}, t'.view = t.view.giveBack j rest
      ({ (t.record j).conceive P t.nextPid now with stack := none }.forget.enter .unused) →
        t'.view = t.view.giveBack j rest ((t.record j).undone P now) :=
    fun hview => hview.trans (congrArg (t.view.giveBack j rest ·) hundone)
  cases hspace : (t.record me).space with
  | none =>
    have hfurnish : t₁.furnish j (.child (t.plan me)) = t₁.abandonFork j := by
      simp only [furnish, plan, hspace]
    rw [hfurnish]
    refine h.alone_abandonFork h₀ hqueue rfl fun _ _ hview => ?_
    exact .noSpace hqueue hspace (hback hview)
  | some source =>
    have hfurnish : t₁.furnish j (.child (t.plan me)) =
        t₁.suspend (.copying j (t.plan me) source) := by
      simp only [furnish, plan, hspace]
    rw [hfurnish]
    refine .waiting fun space _ => ?_
    cases space with
    | none =>
      refine h.alone_abandonFork h₀ hqueue rfl fun _ _ hview => ?_
      exact .noCopy hqueue hspace (hback hview)
    | some space =>
      refine h.alone_duplicateFiles h₀ hqueue [] fun _ _ _ hcopies hdir hview => ?_
      exact .child hqueue hspace hcopies hdir hview

/-- **A fork that is left alone is all or nothing.** -/
theorem Orderly.alone_fork (h : t.Orderly) (hblank : t.view.Blank)
    (hme : t.occupant? cpu = some me) (hpids : ¬ t.Full → t.nextPid + 1 < word32)
    (clock : Clock) : Alone (t.Forked me clock.now) [] ((Request.fork cpu).start clock t) := by
  have hfork : (Request.fork cpu).start clock t =
      t.allocateFor (.child (t.plan me)) clock.now := by
    change (t.blueprint cpu >>= _) = _
    rw [h.sound.blueprint_eq_ok hme]
    rfl
  rw [hfork]
  by_cases hfull : t.Full
  · unfold allocateFor
    rw [h.conceive_eq_none hfull]
    exact .returned (.full hfull)
  have hconceive : Yields _ (t.conceive clock.now) _ := h.yields_conceive
  obtain ⟨_ | ⟨j, t₁⟩, e, hresult⟩ := hconceive.exists_ok (hpids hfull)
  · exact absurd (h.sound.full_iff.2 hresult) hfull
  obtain ⟨h₁, hhead, hstage, hview₁⟩ := hresult
  obtain ⟨rest, hqueue⟩ := List.head?_eq_some_iff.1 hhead
  have hbuilds : t.Builds j ((t.record j).conceive P t.nextPid clock.now) t₁ := ⟨h₁, hview₁, rfl⟩
  obtain ⟨hundone, hundone'⟩ := undone_eq hstage (hblank j) P t.nextPid clock.now
  unfold allocateFor
  rw [e]
  refine .waiting fun stack _ => ?_
  cases stack with
  | none =>
    obtain ⟨t', e', hview'⟩ := hbuilds.discard h.sound hqueue
    change Alone _ _ (t₁.discard j >>= _)
    rw [e']
    exact .returned (.noStack hqueue (hundone ▸ hview'))
  | some stack =>
    obtain ⟨t₂, e₂, hbuilds₂⟩ := hbuilds.giveStack stack
    change Alone _ _ (t₁.giveStack j stack >>= _)
    rw [e₂]
    exact hbuilds₂.alone_furnish h.sound hqueue hundone'

/-- A fork is refused for want of a slot exactly where no slot is free. -/
theorem Forked.full_iff {ending : Ending P} (ht : t.Sound) (h : t.Forked me now replies ending) :
    t.Full ↔ ∃ t', ending = .ok (.created (.error .outOfProcesses), t') := by
  have hfree : ∀ {j : Slot} {rest : List Slot}, t.queue (.stage .unused) = j :: rest → ¬ t.Full :=
    fun hqueue hfull => by cases (ht.full_iff.1 hfull).symm.trans hqueue
  cases h with
  | full hfull => exact ⟨fun _ => ⟨t, rfl⟩, fun _ => hfull⟩
  | noStack hqueue | noSpace hqueue | noCopy hqueue | child hqueue =>
    refine ⟨fun hfull => absurd hfull (hfree hqueue), ?_⟩
    rintro ⟨t', h⟩
    cases h

end Table

namespace Machine

variable {P : Params} {m : Machine P} {steps : List (Step P)} {cpu : Cpu} {me : Slot}

/-- **Forks are all or nothing.**  In every run, a fork of the process on a CPU that is left alone
ends, whatever the answers to its calls, and unless the pids run out it ends as follows.  It is
refused for want of a slot exactly where none is free, without a call and with the table as it was.
If a stack, an address space to copy or the copy is missing, it has freed the stack if there was one
and duplicated no file; of the table only the next pid has changed, the first free slot, which is
the last one now, and what is left in that slot.  Otherwise the first free slot holds the child, all
of whose record is new, at the end of the top level; its pid has never been given out before. -/
theorem forked_of_history {t : Table P} {start : Nat}
    (hcreate : Table.create P start = .ok (.ok t)) (hrun : History { table := t } steps m)
    (hme : m.table.occupant? cpu = some me) (hpids : ¬ m.table.Full → m.table.nextPid + 1 < word32)
    (clock : Clock) :
    m.table.nextPid ∉ steps.filterMap Step.given? ∧
    Alone (fun replies ending => m.table.Forked me clock.now replies ending ∧
        (m.table.Full ↔ ∃ t', ending = .ok (.created (.error .outOfProcesses), t')))
      [] ((Request.fork cpu).start clock m.table) := by
  have ht := (Table.orderly_of_create hcreate).1
  have hm := hrun.orderly ht
  refine ⟨fun hgiven => ?_, ?_⟩
  · have hrenumbers := hrun.renumbers ht
    rw [hrenumbers.given_eq, List.mem_range'_1, ← hrenumbers.next] at hgiven
    exact Nat.lt_irrefl _ hgiven.2
  · have hblank := hrun.blank ht ⟨nofun, List.nodup_nil⟩ (blank_of_create hcreate)
    refine (hm.alone_fork hblank.records hme hpids clock).mono fun replies ending h => ⟨h, ?_⟩
    exact h.full_iff hm.sound

/-- A run in which the root process runs, and may fork. -/
theorem forked_of_running : ∃ (t : Table ⟨2, 0, 1, 1, 1, true⟩) (steps : List (Step _))
    (m : Machine _), Table.create _ 0 = .ok (.ok t) ∧ History { table := t } steps m ∧
      m.table.occupant? 0 = some 0 ∧ ¬ m.table.Full ∧ m.table.nextPid + 1 < word32 ∧
      m.table.nextPid ∉ steps.filterMap Step.given? ∧
      Alone (fun replies ending => m.table.Forked 0 0 replies ending ∧
          (m.table.Full ↔ ∃ t', ending = .ok (.created (.error .outOfProcesses), t')))
        [] ((Request.fork 0).start 0 m.table) := by
  obtain ⟨t, steps, m, hcreate, hrun, hme, hstage, hpids⟩ :
      ∃ (t : Table ⟨2, 0, 1, 1, 1, true⟩) (steps : List (Step _)) (m : Machine _),
        Table.create _ 0 = .ok (.ok t) ∧ History { table := t } steps m ∧
          m.table.occupant? 0 = some 0 ∧ (m.table.record 1).stage = .unused ∧
          m.table.nextPid + 1 < word32 :=
    ⟨_, _, _, rfl,
      History.nil.event (e := .start (.boot "" []) 0) trivial rfl
        |>.event (e := .answer ⟨none, .allocating 0 (.root "" [])⟩ (some ⟨0⟩) 0)
          List.mem_cons_self rfl
        |>.event (e := .answer ⟨none, .mapping 0 "" []⟩ (some ⟨0⟩) 0) List.mem_cons_self rfl
        |>.event (e := .start (.dispatch 0) 0) trivial rfl, rfl, rfl, by decide⟩
  have hfree : ¬ m.table.Full := fun hfull => hfull 1 (by decide) hstage
  exact ⟨t, steps, m, hcreate, hrun, hme, hfree, hpids,
    forked_of_history hcreate hrun hme (fun _ => hpids) 0⟩

end Machine

end FeedbackQueue
