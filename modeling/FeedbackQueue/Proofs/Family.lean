import FeedbackQueue.Proofs.Blocking
import FeedbackQueue.Table.Family
import FeedbackQueue.Table.Identity

/-!
# Birth, death and family on the view

A slot is taken from the head of the unused chain and becomes an embryo with the next pid; it starts
as the root process or as a child, or is freed again.  An exit gives every child of the process to
the root process, and a reaped process frees its slot.

## Main definitions

* `View.conceive`, `View.discard`, `View.crown`, `View.launch` : the view after steps of a birth.
* `View.adopt` : the view after the children of a slot have gone to the root process.
* `View.retire`, `View.reap` : the view after an exit and after its reaping.

## Main statements

* `Sound.yields_adoptChildren` : the loops of `Table.adoptChildren` come to `View.adopt`.
* `Orderly.yields_conceive`, …, `Orderly.yields_scan` : the operations.
-/

namespace FeedbackQueue

namespace Process

/-- The record of a slot that has just been taken. -/
def conceive (P : Params) (pid : Pid) (now : Nat) (p : Process) : Process :=
  { p with
    pid, stage := .embryo, priority := P.maxPriority, budget := P.budget, startedAt := now
    cpuTicks := 0, dispatchedAt := 0, parent := none, killed := false, channel := none }

/-- The record of the root process before its start. -/
def crown (name : String) (space : AddressSpace) (p : Process) : Process :=
  { p.rename name with space := some space, size := pageSize, uid := rootUid, gid := rootGid }

/-- The record of a child before its start. -/
def launch (plan : Blueprint) (space : AddressSpace) (files : List FileHandle)
    (cwd : Option FileHandle) (p : Process) : Process :=
  { p with
    space := some space, size := plan.size, uid := plan.uid, gid := plan.gid, name := plan.name
    files, cwd, parent := some plan.parent, callResult := 0 }

/-- The record in another stage. -/
def enter (s : Stage) (p : Process) : Process := { p with stage := s }

@[simp] theorem enter_stage {s : Stage} {p : Process} : (p.enter s).stage = s := rfl

section Crown

variable {name : String} {space : AddressSpace} {p : Process}

@[simp] theorem crown_pid : (p.crown name space).pid = p.pid := by simp only [crown, rename]
@[simp] theorem crown_stage : (p.crown name space).stage = p.stage := by simp only [crown, rename]
@[simp] theorem crown_priority : (p.crown name space).priority = p.priority := by
  simp only [crown, rename]

end Crown

end Process

namespace View

variable {P : Params} {v : View} {i : Slot} {c : Channel} {xs ys : List Slot}

/-- The view after a free slot has been taken. -/
def conceive (P : Params) (i : Slot) (now : Nat) (v : View) : View :=
  { v.shift i (Process.conceive P v.nextPid now) with nextPid := v.nextPid + 1 }

/-- The view after an embryo has been freed. -/
def discard (i : Slot) (v : View) : View :=
  (v.revise i Process.forget).shift i (Process.enter .unused)

/-- The view after an embryo with its stack has been freed. -/
def abandon (i : Slot) (v : View) : View :=
  (v.revise i fun p => { p with stack := none }).discard i

/-- The view after the root process has started. -/
def crown (i : Slot) (name : String) (space : AddressSpace) (v : View) : View :=
  { v.revise i (Process.crown name space) with root := some i }.shift i (Process.enter .runnable)

/-- The view after a child has started. -/
def launch (i : Slot) (plan : Blueprint) (space : AddressSpace) (files : List FileHandle)
    (cwd : Option FileHandle) (v : View) : View :=
  (v.revise i (Process.launch plan space files cwd)).shift i (Process.enter .runnable)

/-- The view after the files of a slot have been taken. -/
def surrender (i : Slot) (v : View) : View :=
  v.revise i fun p => { p with files := [], cwd := none }

/-- The view with the children of a slot among `xs` given to the root process. -/
def reparent (i : Slot) (xs : List Slot) (v : View) : View :=
  { v with
    record := fun j => if j ∈ xs ∧ (v.record j).parent = some i then
      { v.record j with parent := v.root } else v.record j }

/-- The view after the children of a slot have gone to the root process, which has been woken if
one of them has exited. -/
def adopt (P : Params) (i : Slot) (v : View) : View :=
  let adopted := v.reparent i (Table.searched.flatMap (v.members P))
  match v.root with
  | some r =>
    if (v.queue (.stage .zombie)).any fun j => (v.record j).parent = some i then
      adopted.wake (.process (v.record r).pid)
    else adopted
  | none => adopted

/-- The view after the exit of a running slot at `now`. -/
def retire (P : Params) (i : Slot) (now : Nat) (v : View) : View :=
  (((v.wakeParent (v.record i)).adopt P i).shift i (Process.enter .zombie)).revise i
    (fun p => { p with size := 0 }) |>.depart i now

/-- The view after an exited slot has been freed. -/
def reap (i : Slot) (v : View) : View :=
  (v.revise i fun p => { p with stack := none, space := none }.forget).shift i
    (Process.enter .unused)

theorem conceive_record {now : Nat} : (v.conceive P i now).record =
    Function.update v.record i ((v.record i).conceive P v.nextPid now) := rfl

/-- A slot in use has a parent. -/
def ChildOf (v : View) (me i : Slot) : Prop :=
  (v.record i).stage ≠ .unused ∧ (v.record i).parent = some me

/-- An exited child of a slot, on no CPU. -/
def Reapable (v : View) (me i : Slot) : Prop :=
  (v.record i).stage = .zombie ∧ (v.record i).parent = some me ∧ ¬ v.Marked i

/-! ### Adoption -/

theorem reparent_nil : v.reparent i [] = v := by
  simp [reparent]

theorem reparent_record_of_not_mem {j : Slot} (h : j ∉ xs) :
    (v.reparent i xs).record j = v.record j :=
  if_neg fun hj => h hj.1

theorem reparent_reparent : (v.reparent i xs).reparent i ys = v.reparent i (xs ++ ys) := by
  refine View.ext (funext fun j => ?_) rfl rfl rfl rfl rfl
  simp only [reparent, List.mem_append]
  by_cases hp : (v.record j).parent = some i
  · by_cases hx : j ∈ xs <;> by_cases hy : j ∈ ys <;> simp [hp, hx, hy]
  · simp [hp]

theorem reparent_stage {j : Slot} : ((v.reparent i xs).record j).stage = (v.record j).stage := by
  unfold reparent
  dsimp only
  split <;> rfl

/-- Waking looks at no parent. -/
theorem reparent_wake : (v.wake c).reparent i xs = (v.reparent i xs).wake c := by
  have hsleeps : ∀ j,
      ((v.reparent i xs).record j).sleepsOn c = (v.record j).sleepsOn c := by
    intro j
    simp only [reparent]
    split <;> rfl
  have hpriority : ∀ j, ((v.reparent i xs).record j).priority = (v.record j).priority := by
    intro j
    simp only [reparent]
    split <;> rfl
  refine View.ext (funext fun j => ?_) ?_ rfl rfl rfl rfl
  · simp only [wake, hsleeps]
    by_cases hp : j ∈ xs ∧ (v.record j).parent = some i
    · by_cases hs : (v.record j).sleepsOn c = true <;> simp [reparent, hp, hs, Process.awaken]
    · by_cases hs : (v.record j).sleepsOn c = true <;> simp [reparent, hp, hs, Process.awaken]
  · simp only [wake, hsleeps, hpriority]
    rfl

theorem wake_eq_self (h : ∀ j, (v.record j).sleepsOn c = false) : v.wake c = v := by
  refine View.ext (funext fun j => ?_) (funext fun place => ?_) rfl rfl rfl rfl
  · simp [wake, h]
  · rcases place with s | level
    · cases s <;> simp [wake, h]
    · simp [wake, h]

/-- Nobody is left to be woken twice. -/
theorem wake_wake : (v.wake c).wake c = v.wake c := by
  refine wake_eq_self fun j => ?_
  by_cases hs : (v.record j).sleepsOn c = true
  · simp [wake, hs, Process.sleepsOn_awaken]
  · simp [wake, hs]

theorem adopt_marker : (v.adopt P i).marker = v.marker := by
  unfold adopt
  dsimp only
  split
  · split <;> rfl
  · rfl

/-- Adoption changes parent, channel and stage of a record, and nothing else. -/
theorem adopt_record_eq {j : Slot} : ∃ parent channel stage,
    (v.adopt P i).record j = { v.record j with parent, channel, stage } := by
  have hreparent : ∀ w : View, w = v.reparent i (Table.searched.flatMap (v.members P)) →
      ∃ parent, w.record j = { v.record j with parent } := by
    rintro w rfl
    unfold reparent
    dsimp only
    split
    · exact ⟨_, rfl⟩
    · exact ⟨_, rfl⟩
  unfold adopt
  obtain ⟨parent, e⟩ := hreparent _ rfl
  dsimp only
  split
  · split
    · -- the root process is woken
      obtain ⟨channel, stage, e'⟩ := wake_record_eq (v := v.reparent i _) (i := j)
      exact ⟨parent, channel, stage, by rw [e', e]⟩
    · exact ⟨parent, _, _, e⟩
  · exact ⟨parent, _, _, e⟩

theorem adopt_running_iff {j : Slot} :
    ((v.adopt P i).record j).stage = .running ↔ (v.record j).stage = .running := by
  unfold adopt
  dsimp only
  split
  · split
    · rw [wake_running_iff, reparent_stage]
    · rw [reparent_stage]
  · rw [reparent_stage]

end View

namespace Table

variable {P : Params} {t : Table P} {i j : Slot} {cpu : Cpu} {now : Nat} {xs : List Slot}
  {rootPid : Option Pid} {s : Stage}

/-! ### Adoption -/

/-- The change of one parent. -/
theorem Sound.revise_parent_eq_ok (h : t.Sound) (hj : j < P.capacity)
    (hparent : (t.record j).parent = some i) :
    ∃ t', t.revise j (fun p => { p with parent := t.root }) = .ok t' ∧ t'.Sound ∧
      t'.view = t.view.reparent i [j] := by
  obtain ⟨t', e, -, h', hview⟩ := (h.yields_revise (f := fun p => { p with parent := t.root })
    (h.valid.priority_le j) fun _ => Process.home_congr rfl fun _ => rfl).exists_ok hj
  refine ⟨t', e, h', ?_⟩
  rw [hview]
  refine View.ext (funext fun k => ?_) rfl rfl rfl rfl rfl
  rw [View.revise_record, Function.update_apply]
  by_cases hk : k = j
  · simp [View.reparent, hk, hparent]
  · simp [View.reparent, hk]

theorem reparent_of_ne (hparent : (t.record j).parent ≠ some i) :
    t.view.reparent i [j] = t.view := by
  refine View.ext (funext fun k => ?_) rfl rfl rfl rfl rfl
  by_cases hk : k = j
  · simp [View.reparent, hk, hparent]
  · simp [View.reparent, hk]

/-- Giving children that have not exited to the root process. -/
theorem Sound.foldlM_adopt_eq_ok (h : t.Sound) (hs : s ≠ .zombie ∨ rootPid = none)
    (hxs : ∀ j ∈ xs, j < P.capacity) :
    ∃ t', xs.foldlM (adopt i rootPid s) t = .ok t' ∧ t'.Sound ∧ t'.view = t.view.reparent i xs := by
  induction xs generalizing t with
  | nil => exact ⟨t, rfl, h, View.reparent_nil.symm⟩
  | cons j xs ih =>
    have hj := hxs j List.mem_cons_self
    have hadopt : ∃ t', adopt i rootPid s t j = .ok t' ∧ t'.Sound ∧
        t'.view = t.view.reparent i [j] := by
      unfold adopt
      rw [process_of_lt hj]
      change ∃ t', (if (t.record j).parent ≠ some i then _ else _) = _ ∧ _
      by_cases hparent : (t.record j).parent = some i
      · rw [if_neg (not_not.2 hparent)]
        obtain ⟨t', e, h', hview⟩ := h.revise_parent_eq_ok hj hparent
        refine ⟨t', ?_, h', hview⟩
        rw [e]
        rcases hs with hs | rfl
        · cases s <;> first | rfl | exact absurd rfl hs
        · cases s <;> rfl
      · rw [if_pos hparent]
        exact ⟨t, rfl, h, (reparent_of_ne hparent).symm⟩
    obtain ⟨t₁, e₁, h₁, hview₁⟩ := hadopt
    obtain ⟨t', e', h', hview'⟩ := ih h₁ fun k hk => hxs k (List.mem_cons_of_mem _ hk)
    refine ⟨t', ?_, h', ?_⟩
    · rw [List.foldlM_cons, e₁]
      exact e'
    · rw [hview', hview₁, View.reparent_reparent]
      rfl

/-- Giving exited children to a root process, which is woken for the first of them. -/
theorem Sound.foldlM_adopt_zombie_eq_ok (h : t.Sound) (pid : Pid) (hnodup : xs.Nodup)
    (hxs : ∀ j ∈ xs, j < P.capacity) :
    ∃ t', xs.foldlM (adopt i (some pid) .zombie) t = .ok t' ∧ t'.Sound ∧
      t'.view = if xs.any fun j => (t.record j).parent = some i then
        (t.view.reparent i xs).wake (.process pid) else t.view.reparent i xs := by
  induction xs generalizing t with
  | nil => exact ⟨t, rfl, h, View.reparent_nil.symm⟩
  | cons j xs ih =>
    obtain ⟨hnotin, hrest⟩ := List.nodup_cons.1 hnodup
    have hj := hxs j List.mem_cons_self
    have hxs' : ∀ k ∈ xs, k < P.capacity := fun k hk => hxs k (List.mem_cons_of_mem _ hk)
    rw [List.foldlM_cons]
    unfold adopt
    rw [process_of_lt hj]
    change ∃ t', ((if (t.record j).parent ≠ some i then _ else _) >>= _) = _ ∧ _
    by_cases hparent : (t.record j).parent = some i
    · rw [if_neg (not_not.2 hparent)]
      obtain ⟨t₁, e₁, h₁, hview₁⟩ := h.revise_parent_eq_ok hj hparent
      obtain ⟨t₂, e₂, h₂, hview₂⟩ := h₁.wake_eq_ok (.process pid)
      obtain ⟨t', e', h', hview'⟩ := ih h₂ hrest hxs'
      -- who slept on the root process is awake now, so that the children left wake nobody
      have hwake : (t₂.view.reparent i xs).wake (.process pid) = t₂.view.reparent i xs := by
        rw [hview₂, View.reparent_wake, View.wake_wake]
      refine ⟨t', ?_, h', ?_⟩
      · rw [e₁]
        change ((t₁.wake _ >>= _) >>= _) = _
        rw [e₂]
        exact e'
      · rw [hview', hwake, ite_self, hview₂, hview₁, View.reparent_wake, View.reparent_reparent]
        simp [hparent]
    · rw [if_pos hparent]
      obtain ⟨t', e', h', hview'⟩ := ih h hrest hxs'
      refine ⟨t', e', h', ?_⟩
      have hcons : t.view.reparent i (j :: xs) = t.view.reparent i xs := by
        rw [← List.singleton_append, ← View.reparent_reparent, reparent_of_ne hparent]
      rw [hview', hcons]
      simp [hparent]

/-- Giving the children in some stages, none of them exited, to the root process. -/
theorem Sound.foldlM_stages_eq_ok (h : t.Sound) (rootPid : Option Pid) (ss : List Stage)
    (hss : ∀ s ∈ ss, s ≠ .zombie ∨ rootPid = none) :
    ∃ t', ss.foldlM (fun t s => (t.members s).foldlM (adopt i rootPid s) t) t = .ok t' ∧ t'.Sound ∧
      t'.view = t.view.reparent i (ss.flatMap (t.view.members P)) := by
  induction ss generalizing t with
  | nil => exact ⟨t, rfl, h, View.reparent_nil.symm⟩
  | cons s ss ih =>
    obtain ⟨t₁, e₁, h₁, hview₁⟩ := h.foldlM_adopt_eq_ok (i := i) (hss s List.mem_cons_self)
      fun j hj => (h.mem_members_iff.1 hj).1
    obtain ⟨t', e', h', hview'⟩ := ih h₁ fun s' hs' => hss s' (List.mem_cons_of_mem _ hs')
    refine ⟨t', ?_, h', ?_⟩
    · rw [List.foldlM_cons, e₁]
      exact e'
    · have hmembers : t₁.view.members P = t.view.members P := by
        rw [hview₁]
        funext s'
        cases s' <;> rfl
      rw [hview', hmembers, hview₁, View.reparent_reparent, members_eq, List.flatMap_cons]

/-- Giving the children of a slot to the root process, in one formula. -/
theorem Sound.yields_adoptChildren (h : t.Sound) :
    Yields (∀ r, t.root = some r → r < P.capacity) (t.adoptChildren i) fun t' =>
      t'.Sound ∧ t'.view = t.view.adopt P i := by
  unfold adoptChildren View.adopt
  rw [view_root]
  cases hroot : t.root with
  | none =>
    refine .bind_eq (a := none) rfl ?_
    obtain ⟨t', e, h', hview⟩ := h.foldlM_stages_eq_ok (i := i) none searched fun _ _ => .inr rfl
    rw [e]
    exact .ok ⟨h', hview⟩
  | some r =>
    have hpid : Yields (∀ r', some r = some r' → r' < P.capacity)
        (Option.mapM (fun r => do return (← t.process r).pid) (some r)) fun rootPid =>
          rootPid = some (t.record r).pid := by
      refine Yields.map (r := t.process r >>= fun p => pure p.pid) ?_
      refine (yields_process.restrict fun hg => hg r rfl).bind ?_
      rintro p ⟨_, hp⟩
      subst hp
      exact .ok rfl
    refine hpid.bind fun rootPid hrootPid => ?_
    subst hrootPid
    obtain ⟨t₁, e₁, h₁, hview₁⟩ := h.foldlM_stages_eq_ok (i := i)
      (some (t.record r).pid) unexited (by simp [unexited])
    -- the exited come last; until then they have neither moved nor changed their parent
    have hzombie : t₁.members .zombie = t.queue (.stage .zombie) := by
      rw [members_of_ne (by simp), ← view_queue, hview₁]
      rfl
    have hparent : ((t.queue (.stage .zombie)).any fun j => (t₁.record j).parent = some i) =
        (t.queue (.stage .zombie)).any fun j => (t.record j).parent = some i := by
      rw [Bool.eq_iff_iff, List.any_eq_true, List.any_eq_true]
      refine exists_congr fun j => and_congr_right fun hj => ?_
      rw [← members_of_ne (by simp)] at hj
      have hstage := (h.mem_members_iff.1 hj).2
      rw [← view_record, hview₁, View.reparent_record_of_not_mem]
      · rfl
      · rintro hmem
        obtain ⟨s, hs, hj'⟩ := List.mem_flatMap.1 hmem
        rw [h.valid.mem_members_iff, view_record, hstage] at hj'
        simp [unexited, ← hj'.2] at hs
    obtain ⟨t', e', h', hview'⟩ := h₁.foldlM_adopt_zombie_eq_ok (i := i) (t.record r).pid
      (h₁.nodup_members (s := .zombie) (by simp)) fun j hj => (h₁.mem_members_iff.1 hj).1
    have hsearched : searched = unexited ++ [.zombie] := rfl
    rw [hsearched, List.foldlM_append, e₁]
    refine .bind_eq rfl ?_
    rw [List.foldlM_cons, e']
    refine .ok ⟨h', ?_⟩
    have hlast : [Stage.zombie].flatMap (t.view.members P) = t.queue (.stage .zombie) := by
      simp [View.members]
    rw [hview', hzombie, hparent, hview₁, View.reparent_reparent, List.flatMap_append, hlast]
    rfl

/-! ### Birth -/

/-- Taking the first free slot. -/
theorem Orderly.yields_conceive (h : t.Orderly) :
    Yields (t.nextPid + 1 < word32) (t.conceive now) fun
      | none => t.queue (.stage .unused) = []
      | some (i, t') => t'.Orderly ∧ (t.queue (.stage .unused)).head? = some i ∧
          (t.record i).stage = .unused ∧ t'.view = t.view.conceive P i now := by
  have hc := h.sound.threaded (.stage .unused) t.unused rfl
  unfold conceive
  rw [hc.head_eq]
  cases hqueue : t.queue (.stage .unused) with
  | nil => exact .ok rfl
  | cons i rest =>
    obtain ⟨hlt, hhome, -⟩ := (h.sound.valid.mem_iff (.stage .unused) i).1 (by simp [hqueue])
    have hstage := (Process.home_eq_stage_iff (by simp)).1 hhome
    refine (h.sound.yields_unlist.restrict fun _ => ⟨hlt, hstage⟩).bind ?_
    rintro t₁ ⟨_, h₁, hview₁⟩
    have hnext : t₁.nextPid = t.nextPid := congrArg View.nextPid hview₁
    have hpid : Yields (t.nextPid + 1 < word32) t₁.takePid fun x =>
        x.1 = t.nextPid ∧ x.2.SoundBut (some i) ∧
          x.2.view = { t.view.drop i with nextPid := t.nextPid + 1 } := by
      unfold takePid
      rw [hnext]
      refine yields_addBelow.bind ?_
      rintro nextPid ⟨_, hn⟩
      refine .pure ⟨rfl, ?_, ?_⟩
      · exact h₁.of_eq rfl rfl rfl h₁.valid.marker_lt h₁.valid.marker_inj
      · rw [← hview₁, hn]
        rfl
    refine hpid.bind ?_
    rintro ⟨pid, t₂⟩ ⟨hp, h₂, hview₂⟩
    subst hp
    refine ((h₂.yields_revise (f := Process.conceive P t.nextPid now) (Nat.le_refl _)
      fun hne => absurd rfl hne).restrict fun _ => hlt).bind ?_
    rintro t₃ ⟨_, h₃, hview₃⟩
    refine (h₃.yields_enlist.restrict fun _ => hlt).bind ?_
    rintro t₄ ⟨_, h₄, hview₄⟩
    have hview : t₄.view = t.view.conceive P i now := by
      rw [hview₄, hview₃, hview₂]
      rfl
    have h₄' : t₄.Orderly := h.of_update h₄
      ((congrArg View.record hview).trans View.conceive_record) (fun hs => by cases hs)
      (congrArg View.marker hview)
    rw [h₄'.settle_eq]
    exact .ok ⟨h₄', rfl, hstage, hview⟩

theorem Orderly.yields_giveStack (h : t.Orderly) {stack : KernelStack} :
    Yields (i < P.capacity) (t.giveStack i stack) fun t' =>
      t'.Orderly ∧ t'.view = t.view.revise i fun p => { p with stack := some stack } :=
  h.yields_revise (fun _ => rfl) fun _ => rfl

/-- Freeing the slot of an embryo. -/
theorem Orderly.yields_discard (h : t.Orderly) :
    Yields (i < P.capacity ∧ (t.record i).stage = .embryo) (t.discard i) fun t' =>
      t'.Orderly ∧ (t.record i).stage = .embryo ∧ t'.view = t.view.discard i := by
  unfold discard
  refine ((h.yields_revise (f := Process.forget) (fun _ => rfl) fun _ => rfl).restrict
    And.left).bind ?_
  rintro t₁ ⟨h₁, hview₁⟩
  have hstage : (t₁.record i).stage = (t.record i).stage := by
    rw [record_of_revise hview₁]
    rfl
  refine ((h₁.yields_move (by simp)).restrict ?_).bind fun t₂ ⟨h₂, hembryo, hview₂⟩ => ?_
  · rw [hstage]
    exact id
  · rw [h₂.settle_eq]
    refine .ok ⟨h₂, hstage ▸ hembryo, ?_⟩
    rw [hview₂, hview₁]
    rfl

theorem Orderly.yields_abandon (h : t.Orderly) :
    Yields (i < P.capacity ∧ (t.record i).stage = .embryo) (t.abandon i) fun (stack, t') =>
      t'.Orderly ∧ stack = (t.record i).stack ∧ (t.record i).stage = .embryo ∧
        t'.view = t.view.abandon i := by
  unfold abandon
  refine (yields_process.restrict And.left).bind ?_
  rintro p ⟨hi, hp⟩
  subst hp
  refine ((h.yields_revise (f := fun p => { p with stack := none }) (fun _ => rfl)
    fun _ => rfl).restrict And.left).bind ?_
  rintro t₁ ⟨h₁, hview₁⟩
  have hstage : (t₁.record i).stage = (t.record i).stage := by
    rw [record_of_revise hview₁]
  refine (h₁.yields_discard.restrict ?_).bind fun t₂ ⟨h₂, hembryo, hview₂⟩ => ?_
  · rw [hstage]
    exact id
  · refine .pure ⟨h₂, rfl, hstage ▸ hembryo, ?_⟩
    rw [hview₂, hview₁]
    rfl

/-- Starting the root process. -/
theorem Orderly.yields_crown (h : t.Orderly) {name : String} {space : AddressSpace} :
    Yields (t.root = none ∧ i < P.capacity ∧ (t.record i).stage = .embryo)
      (t.crown i name space) fun (pid, t') =>
      t'.Orderly ∧ t.root = none ∧ pid = (t.record i).pid ∧ (t.record i).stage = .embryo ∧
        t'.view = t.view.crown i name space := by
  unfold crown
  cases hroot : t.root with
  | some r => exact .error nofun rfl
  | none =>
    rw [if_neg (by simp)]
    refine ((h.yields_revise (f := Process.crown name space) (fun _ => Process.crown_stage)
      fun _ => Process.crown_priority).restrict fun hg => hg.2.1).bind ?_
    rintro t₁ ⟨h₁, hview₁⟩
    have hrecord := record_of_revise hview₁
    have hstage : (t₁.record i).stage = (t.record i).stage := by rw [hrecord, Process.crown_stage]
    refine (yields_process.restrict fun hg => hg.2.1).bind ?_
    rintro p ⟨hlt, hp⟩
    subst hp
    have h₂ : Orderly { t₁ with root := some i } :=
      ⟨h₁.sound.of_eq rfl rfl rfl h₁.sound.valid.marker_lt h₁.sound.valid.marker_inj, h₁.scheduled⟩
    refine ((h₂.yields_move (by simp)).restrict ?_).bind fun t₃ ⟨h₃, hembryo, hview₃⟩ => ?_
    · change _ → i < P.capacity ∧ (t₁.record i).stage = .embryo
      rw [hstage]
      exact fun hg => hg.2
    · change (t₁.record i).stage = .embryo at hembryo
      rw [hstage] at hembryo
      refine .bind_eq h₃.settle_eq (.pure ⟨h₃, rfl, ?_, hembryo, ?_⟩)
      · rw [hrecord, Process.crown_pid]
      · have hview₂ : view { t₁ with root := some i } =
            { t.view.revise i (Process.crown name space) with root := some i } := by
          rw [← hview₁]
          rfl
        rw [hview₃, hview₂]
        rfl

theorem yields_blueprint (h : t.Sound) :
    Yields (∃ i, t.occupant? cpu = some i) (t.blueprint cpu) fun plan =>
      t.occupant? cpu = some plan.parent ∧ plan.size = (t.record plan.parent).size ∧
        plan.uid = (t.record plan.parent).uid ∧ plan.gid = (t.record plan.parent).gid ∧
        plan.name = (t.record plan.parent).name ∧ plan.space = (t.record plan.parent).space ∧
        plan.files = (t.record plan.parent).files ∧ plan.cwd = (t.record plan.parent).cwd := by
  unfold blueprint
  refine yields_occupant.bind fun i hi => ?_
  refine .bind_eq (process_of_lt (h.valid.marker_lt cpu i hi)) ?_
  exact .pure ⟨hi, rfl, rfl, rfl, rfl, rfl, rfl, rfl⟩

/-- Starting a child. -/
theorem Orderly.yields_launch (h : t.Orderly) {plan : Blueprint} {space : AddressSpace}
    {files : List FileHandle} {cwd : Option FileHandle} :
    Yields (i < P.capacity ∧ (t.record i).stage = .embryo) (t.launch i plan space files cwd)
      fun (pid, t') =>
      t'.Orderly ∧ pid = (t.record i).pid ∧ (t.record i).stage = .embryo ∧
        t'.view = t.view.launch i plan space files cwd := by
  unfold launch
  refine ((h.yields_revise (f := Process.launch plan space files cwd) (fun _ => rfl)
    fun _ => rfl).restrict And.left).bind ?_
  rintro t₁ ⟨h₁, hview₁⟩
  have hrecord : t₁.record i = (t.record i).launch plan space files cwd := record_of_revise hview₁
  refine (yields_process.restrict And.left).bind ?_
  rintro p ⟨hlt, hp⟩
  subst hp
  refine ((h₁.yields_move (by simp)).restrict ?_).bind fun t₂ ⟨h₂, hembryo, hview₂⟩ => ?_
  · rw [hrecord]
    exact id
  · rw [hrecord] at hembryo
    refine .bind_eq h₂.settle_eq (.pure ⟨h₂, ?_, hembryo, ?_⟩)
    · rw [hrecord]
      rfl
    · rw [hview₂, hview₁]
      rfl

/-! ### Death -/

/-- Taking the files of the process on a CPU, which is not the root process. -/
theorem Orderly.yields_surrenderFiles (h : t.Orderly) :
    Yields (∃ i, t.occupant? cpu = some i ∧ t.root ≠ some i) (t.surrenderFiles cpu)
      fun (files, t') => t'.Orderly ∧ ∃ i, t.occupant? cpu = some i ∧ t.root ≠ some i ∧
        files = (t.record i).files ++ (t.record i).cwd.toList ∧ t'.view = t.view.surrender i := by
  unfold surrenderFiles
  refine yields_occupant_then fun i hi => ?_
  by_cases hroot : t.root = some i
  · rw [if_pos hroot]
    exact .error (fun hg => hg hroot) rfl
  · rw [if_neg hroot]
    have hlt := h.sound.valid.marker_lt cpu i hi
    refine .bind_eq (process_of_lt hlt) ?_
    refine ((h.yields_revise (f := fun p => { p with files := [], cwd := none }) (fun _ => rfl)
      fun _ => rfl).restrict fun _ => hlt).bind ?_
    rintro t' ⟨h', hview⟩
    exact .pure ⟨h', i, hi, hroot, rfl, hview⟩

theorem Orderly.yields_adoptChildren (h : t.Orderly) :
    Yields (∀ r, t.root = some r → r < P.capacity) (t.adoptChildren i) fun t' =>
      t'.Orderly ∧ t'.view = t.view.adopt P i := by
  refine h.sound.yields_adoptChildren.weaken fun t' ⟨h', hview⟩ => ⟨?_, hview⟩
  refine h.of_running h' (fun j hj => ?_) ((congrArg View.marker hview).trans View.adopt_marker)
  rw [← view_record, hview] at hj
  exact View.adopt_running_iff.1 hj

/-- The exit of the running process of a CPU. -/
theorem Orderly.yields_retire (h : t.Orderly) :
    Yields (∃ i, t.occupant? cpu = some i ∧ (t.record i).stage = .running ∧
        (∀ j, (t.record i).parent = some j → j < P.capacity) ∧
        (∀ r, t.root = some r → r < P.capacity) ∧
        (t.record i).cpuTicks + (now - (t.record i).dispatchedAt) < word64) (t.retire cpu now)
      fun t' => t'.Orderly ∧ ∃ i, t.occupant? cpu = some i ∧ (t.record i).stage = .running ∧
        t'.view = t.view.retire P i now := by
  unfold retire
  refine yields_occupant_then fun i hi => ?_
  have hlt := h.sound.valid.marker_lt cpu i hi
  refine .bind_eq (process_of_lt hlt) ?_
  refine (h.yields_wakeParent.restrict fun hg => hg.2.1).bind ?_
  rintro t₁ ⟨h₁, hview₁⟩
  have hroot₁ : t₁.root = t.root := (congrArg View.root hview₁).trans View.wakeParent_root
  refine (h₁.yields_adoptChildren.restrict fun hg => by rw [hroot₁]; exact hg.2.2.1).bind ?_
  rintro t₂ ⟨h₂, hview₂⟩
  -- wake-ups and adoption make nobody start or stop running
  have hrunning : (t₂.record i).stage = .running ↔ (t.record i).stage = .running := by
    rw [← view_record, hview₂, View.adopt_running_iff, hview₁, View.wakeParent_running_iff]
    rfl
  have hrecord₂ : ∃ parent channel stage,
      t₂.record i = { t.record i with parent, channel, stage } := by
    obtain ⟨_, _, e₁⟩ := View.wakeParent_record_eq (v := t.view) (p := t.record i) (i := i)
    obtain ⟨_, _, _, e₂⟩ := View.adopt_record_eq (v := t₁.view) (P := P) (i := i) (j := i)
    rw [← view_record, hview₂, e₂, hview₁, e₁]
    exact ⟨_, _, _, rfl⟩
  refine ((h₂.yields_move (by simp)).restrict fun hg => ⟨hlt, hrunning.2 hg.1⟩).bind ?_
  rintro t₃ ⟨h₃, hs₂, hview₃⟩
  refine ((h₃.yields_revise (f := fun p => { p with size := 0 }) (fun _ => rfl)
    fun _ => rfl).restrict fun _ => hlt).bind ?_
  rintro t₄ ⟨h₄, hview₄⟩
  have hmarker₄ : t₄.occupant? cpu = some i := by
    rw [← view_marker, hview₄, hview₃, View.revise_marker, View.shift_marker, hview₂,
      View.adopt_marker, hview₁, View.wakeParent_marker]
    exact hi
  have hrecord₄ : t₄.record i = { t₂.record i with stage := .zombie, size := 0 } := by
    rw [record_of_revise hview₄, record_of_shift hview₃]
  refine h₄.yields_depart.mono (fun hg => ⟨i, hmarker₄, ?_, ?_⟩)
    fun t' ⟨h', j, hj, _, hview'⟩ => ⟨h', i, hi, hrunning.1 hs₂, ?_⟩
  · rw [hrecord₄]
    nofun
  · obtain ⟨_, _, _, e⟩ := hrecord₂
    rw [hrecord₄, e]
    exact hg.2.2.2
  · rw [hmarker₄] at hj
    cases hj
    rw [hview', hview₄, hview₃, hview₂, hview₁]
    rfl

/-! ### Reaping -/

/-- Freeing the slot of an exited process. -/
theorem Orderly.yields_reap (h : t.Orderly) :
    Yields (i < P.capacity ∧ (t.record i).stage = .zombie) (t.reap i) fun (remains, t') =>
      t'.Orderly ∧ (t.record i).stage = .zombie ∧ t'.view = t.view.reap i ∧
        remains = ⟨(t.record i).pid, (t.record i).stack, (t.record i).space⟩ := by
  unfold reap
  refine (yields_process.restrict And.left).bind ?_
  rintro p ⟨hi, hp⟩
  subst hp
  refine ((h.yields_revise (i := i) (f := fun p => { p with stack := none, space := none }.forget)
    (fun _ => rfl) fun _ => rfl).restrict And.left).bind ?_
  rintro t₁ ⟨h₁, hview₁⟩
  have hstage : (t₁.record i).stage = (t.record i).stage := by
    rw [record_of_revise hview₁]
    rfl
  refine ((h₁.yields_move (by simp)).restrict ?_).bind fun t₂ ⟨h₂, hzombie, hview₂⟩ => ?_
  · rw [hstage]
    exact id
  · refine .pure ⟨h₂, hstage ▸ hzombie, ?_, rfl⟩
    rw [hview₂, hview₁]
    rfl

theorem isChild_eq_ok {me : Slot} (hi : i < P.capacity) :
    t.isChild me i = .ok ((t.record i).parent = some me) := by
  unfold isChild
  rw [process_of_lt hi]
  rfl

/-- The search of a scan for a slot that can be reaped. -/
theorem Sound.find_reapable_eq_ok (h : t.Sound) (me : Slot) :
    ((t.members .zombie).findM? fun i => return (← t.isChild me i) && !t.isMarked i) =
      .ok ((t.members .zombie).find? fun i => (t.record i).parent = some me && !t.isMarked i) := by
  refine findM?_eq_ok fun i hi => ?_
  rw [isChild_eq_ok (h.mem_members_iff.1 hi).1]
  rfl

theorem Sound.find_reapable_iff (h : t.Sound) {me : Slot} :
    i ∈ t.members .zombie ∧ ((t.record i).parent = some me && !t.isMarked i) = true ↔
      t.view.Reapable me i := by
  rw [h.mem_members_iff_of_ne (by simp), View.Reapable, ← isMarked_iff]
  simp

/-- The search of a scan for any child. -/
theorem Sound.anyM_isChild_eq_ok (h : t.Sound) (me : Slot) (ss : List Stage) :
    ss.anyM (fun s => (t.members s).anyM (t.isChild me)) =
      .ok (ss.any fun s => (t.members s).any fun i => (t.record i).parent = some me) :=
  anyM_eq_ok fun _ _ => anyM_eq_ok fun _ hi => isChild_eq_ok (h.mem_members_iff.1 hi).1

theorem Sound.any_isChild_iff (h : t.Sound) (me : Slot) :
    ((t.members .zombie).any (fun i => (t.record i).parent = some me) = true ∨
      (unexited.any fun s => (t.members s).any fun i => (t.record i).parent = some me) = true) ↔
      ∃ i, t.view.ChildOf me i := by
  simp only [List.any_eq_true, h.mem_members_iff, decide_eq_true_eq, View.ChildOf, view_record]
  constructor
  · rintro (⟨i, ⟨-, hs⟩, hp⟩ | ⟨s, hmem, i, ⟨-, hs⟩, hp⟩)
    · exact ⟨i, by simp [hs], hp⟩
    · refine ⟨i, ?_, hp⟩
      rw [hs]
      rintro rfl
      simp [unexited] at hmem
  · rintro ⟨i, hs, hp⟩
    have hlt : i < P.capacity := lt_of_stage_ne hs
    by_cases hz : (t.record i).stage = .zombie
    · exact .inl ⟨i, ⟨hlt, hz⟩, hp⟩
    · refine .inr ⟨(t.record i).stage, ?_, i, ⟨hlt, rfl⟩, hp⟩
      cases hs' : (t.record i).stage <;> simp_all [unexited]

/-- What it means for `me` to find `r` when it looks for an exited child: the first one that can be
reaped, or none and whether to wait for one. -/
def Finds (t : Table P) (me : Slot) : (r : Scan P) → Prop
  | .reaped remains t' => t'.Orderly ∧ ∃ i, t.view.Reapable me i ∧
      (t.queue (.stage .zombie)).find? (fun i =>
        (t.record i).parent = some me && !t.isMarked i) = some i ∧
      t'.view = t.view.reap i ∧
      remains = ⟨(t.record i).pid, (t.record i).stack, (t.record i).space⟩
  | .pending => (∃ i, t.view.ChildOf me i) ∧ (t.record me).killed = false ∧
      ∀ i, ¬ t.view.Reapable me i
  | .noChildren => ((¬ ∃ i, t.view.ChildOf me i) ∨ (t.record me).killed = true) ∧
      ∀ i, ¬ t.view.Reapable me i

/-- A process looks for an exited child. -/
theorem Orderly.yields_scan (h : t.Orderly) :
    Yields (∃ me, t.occupant? cpu = some me) (t.scan cpu) fun r =>
      ∃ me, t.occupant? cpu = some me ∧ t.Finds me r := by
  unfold scan
  refine yields_occupant.bind fun me hme => ?_
  refine .bind_eq (h.sound.find_reapable_eq_ok me) ?_
  cases hfind : (t.members .zombie).find? fun i =>
      (t.record i).parent = some me && !t.isMarked i with
  | some i =>
    have hfound := List.find?_some hfind
    have hreapable := h.sound.find_reapable_iff.1 ⟨List.mem_of_find?_eq_some hfind, hfound⟩
    refine (h.yields_reap.restrict fun _ => ⟨lt_of_stage_eq hreapable.1, hreapable.1⟩).bind ?_
    rintro ⟨remains, t'⟩ ⟨h', _, hview, hremains⟩
    exact .pure ⟨me, hme, And.intro h' ⟨i, hreapable, hfind, hview, hremains⟩⟩
  | none =>
    have hnone : ∀ i, ¬ t.view.Reapable me i := by
      intro i hi
      obtain ⟨hmem, hchild⟩ := h.sound.find_reapable_iff.2 hi
      exact List.find?_eq_none.1 hfind i hmem hchild
    have hzombies : (t.members .zombie).anyM (t.isChild me) =
        .ok ((t.members .zombie).any fun i => (t.record i).parent = some me) :=
      anyM_eq_ok fun i hi => isChild_eq_ok (h.sound.mem_members_iff.1 hi).1
    have hothers := h.sound.anyM_isChild_eq_ok me unexited
    have hchild := h.sound.any_isChild_iff me
    refine .bind_eq hzombies ?_
    -- nothing can be reaped: it remains to say whether there is a child at all
    have hlast : ∀ b : Bool, (b = true ↔ ∃ i, t.view.ChildOf me i) →
        Yields (∃ me, t.occupant? cpu = some me) (do
          if !b then return .noChildren
          if (← t.process me).killed then return .noChildren
          return .pending) fun r => ∃ me, t.occupant? cpu = some me ∧ t.Finds me r := by
      intro b hb
      cases b
      · exact .pure ⟨me, hme, And.intro (.inl fun hc => nomatch hb.2 hc) hnone⟩
      · refine .bind_eq (process_of_lt (h.sound.valid.marker_lt cpu me hme)) ?_
        cases hkilled : (t.record me).killed
        · exact .pure ⟨me, hme, And.intro (hb.1 rfl) ⟨hkilled, hnone⟩⟩
        · exact .pure ⟨me, hme, And.intro (.inr hkilled) hnone⟩
    cases hz : (t.members .zombie).any fun i => (t.record i).parent = some me
    · refine .bind_eq hothers (hlast _ ?_)
      rw [← hchild, hz]
      simp
    · refine hlast true ?_
      rw [← hchild, hz]
      simp

/-! ### Owners -/

/-- A change of the process on a CPU, unless the new number is out of range. -/
theorem Orderly.yields_setId (h : t.Orderly) {f : Process → Process} {id : Nat}
    (hstage : ∀ p, (f p).stage = p.stage) (hpriority : ∀ p, (f p).priority = p.priority) :
    Yields (maxId < id ∨ ∃ i, t.occupant? cpu = some i) (do
      if maxId < id then return .error .invalidArgument
      return .ok (← t.revise (← t.occupant cpu) f) : Except Fault (Except Refusal (Table P))) fun
      | .error _ => True
      | .ok t' => t'.Orderly ∧ ∃ i, t.occupant? cpu = some i ∧ t'.view = t.view.revise i f := by
  by_cases hid : maxId < id
  · rw [if_pos hid]
    exact .ok trivial
  · rw [if_neg hid]
    refine (yields_occupant.restrict fun hg => hg.resolve_left hid).bind fun i hi => ?_
    refine ((h.yields_revise hstage hpriority).restrict fun _ =>
      h.sound.valid.marker_lt cpu i hi).bind ?_
    rintro t' ⟨h', hview⟩
    exact .pure ⟨h', i, hi, hview⟩

theorem Orderly.yields_setUid (h : t.Orderly) {uid : Nat} :
    Yields (maxId < uid ∨ ∃ i, t.occupant? cpu = some i) (t.setUid cpu uid) fun
      | .error _ => True
      | .ok t' => t'.Orderly ∧ ∃ i, t.occupant? cpu = some i ∧
          t'.view = t.view.revise i fun p => { p with uid } :=
  h.yields_setId (fun _ => rfl) fun _ => rfl

theorem Orderly.yields_setGid (h : t.Orderly) {gid : Nat} :
    Yields (maxId < gid ∨ ∃ i, t.occupant? cpu = some i) (t.setGid cpu gid) fun
      | .error _ => True
      | .ok t' => t'.Orderly ∧ ∃ i, t.occupant? cpu = some i ∧
          t'.view = t.view.revise i fun p => { p with gid } :=
  h.yields_setId (fun _ => rfl) fun _ => rfl

end Table

end FeedbackQueue
