import FeedbackQueue.Table.Levels
import FeedbackQueue.Proofs.Lookup

/-!
# Levels on the view

Demotion changes the record of one loose slot.  A promotion sweep appends every ready level to the
next one, raises all runnable, running and sleeping processes below the top level, and changes
nothing else; `View.sweep` says so in one formula, and `Sound.yields_sweep` proves that this is what
the loops of `Table.sweep` come to.

## Main definitions

* `Process.promote` : a record one level higher, with a full budget.
* `View.lift` : the view with the ready levels from `k` up lifted by one.
* `View.sweep` : the view after a sweep.
-/

namespace FeedbackQueue

/-- Whether a process of this stage is runnable, running or asleep. -/
def Stage.isActive : Stage → Bool
  | .runnable | .running | .sleeping => true
  | .unused | .embryo | .zombie => false

theorem Stage.isActive_iff {s : Stage} :
    s.isActive = true ↔ s = .runnable ∨ s = .running ∨ s = .sleeping := by
  cases s <;> simp [isActive]

namespace Process

variable {p : Process} {refill : Int} {now : Nat} {P : Params}

/-- A record one level higher with a full budget, unless it is at the top. -/
def promote (P : Params) (p : Process) : Process :=
  if p.priority < P.maxPriority then
    { p with priority := p.priority + 1, budget := P.budget }
  else p

theorem charge_eq (p : Process) (refill : Int) (now : Nat) : ∃ priority budget,
    p.charge refill now = { p with priority, budget } ∧ priority ≤ p.priority := by
  simp only [charge]
  split
  · exact ⟨_, _, rfl, Nat.sub_le _ _⟩
  · exact ⟨_, _, rfl, Nat.le_refl _⟩

theorem charge_priority_le : (p.charge refill now).priority ≤ p.priority := by
  obtain ⟨priority, budget, e, hle⟩ := p.charge_eq refill now
  rw [e]
  exact hle

theorem promote_eq : ∃ priority budget, p.promote P = { p with priority, budget } := by
  unfold promote
  split
  · exact ⟨_, _, rfl⟩
  · exact ⟨_, _, rfl⟩

@[simp] theorem promote_stage : (p.promote P).stage = p.stage := by
  obtain ⟨_, _, e⟩ := p.promote_eq (P := P)
  rw [e]

theorem promote_home_of_ne (h : p.stage ≠ .runnable) : (p.promote P).home = p.home :=
  home_congr promote_stage fun hs => absurd hs h

theorem promote_home_of_runnable (h : p.stage = .runnable) (hlt : p.priority < P.maxPriority) :
    (p.promote P).home = .ready (p.priority + 1) := by
  rw [home_runnable (by simpa using h), promote, if_pos hlt]

end Process

namespace View

variable {P : Params} {v : View} {i : Slot}

/-- The view with the ready levels from `k` up lifted by one. -/
def lift (P : Params) (k : Nat) (v : View) : View :=
  { v with
    record := fun i => if (v.record i).stage = .runnable ∧ k ≤ (v.record i).priority then
      (v.record i).promote P else v.record i
    queue := fun
      | .ready level =>
        (if k ≤ level ∧ level < P.maxPriority then [] else v.queue (.ready level)) ++
          if k < level ∧ level ≤ P.maxPriority then v.queue (.ready (level - 1)) else []
      | place => v.queue place }

/-- The view after a promotion sweep. -/
def sweep (P : Params) (v : View) : View :=
  { v.lift P 0 with
    record := fun i => if (v.record i).stage.isActive then (v.record i).promote P else v.record i }

/-- The view after a promotion sweep, if it is due at `now`. -/
def sweepIfDue (P : Params) (now : Nat) (v : View) : View :=
  if v.sweepAt ≤ now ∧ 0 < P.maxPriority then
    { v.sweep P with sweepAt := now + P.sweepEvery }
  else v

/-- The view with a process on another level. -/
def assign (P : Params) (i : Slot) (priority : Nat) (v : View) : View :=
  let change (p : Process) : Process := { p with priority, budget := P.budget }
  if (v.record i).stage = .runnable ∧ (v.record i).priority ≠ priority then v.shift i change
  else v.revise i change

theorem assign_record {priority : Nat} : (v.assign P i priority).record =
    Function.update v.record i { v.record i with priority, budget := P.budget } := by
  unfold assign
  split <;> rfl

theorem assign_marker {priority : Nat} : (v.assign P i priority).marker = v.marker := by
  unfold assign
  split <;> rfl

/-- Shifting the first slot of a ready level puts it behind those of the next. -/
theorem shift_promote_queue {level : Nat} (hlevel : level < P.maxPriority) {xs : List Slot}
    (hqueue : v.queue (.ready level) = i :: xs) (hhome : (v.record i).home = .ready level) :
    (v.shift i (Process.promote P)).queue =
      Function.update (Function.update v.queue (.ready level) xs) (.ready (level + 1))
        (v.queue (.ready (level + 1)) ++ [i]) := by
  obtain ⟨hstage, hpriority⟩ := Process.home_eq_ready_iff.1 hhome
  have hnew : ((v.record i).promote P).home = .ready (level + 1) := by
    rw [Process.promote_home_of_runnable hstage (by omega), hpriority]
  simp [shift, append, revise, drop, hhome, hnew, hqueue]

/-- Shifting the slots of one ready level in turn puts them behind those of the next. -/
theorem foldl_shift_promote {level : Nat} (hlevel : level < P.maxPriority) {xs : List Slot}
    (hqueue : v.queue (.ready level) = xs) (hnodup : xs.Nodup)
    (hhome : ∀ i ∈ xs, (v.record i).home = .ready level) :
    xs.foldl (fun v i => v.shift i (Process.promote P)) v =
      { v with
        record := fun i => if i ∈ xs then (v.record i).promote P else v.record i
        queue := Function.update (Function.update v.queue (.ready level) []) (.ready (level + 1))
          (v.queue (.ready (level + 1)) ++ xs) } := by
  induction xs generalizing v with
  | nil =>
    have hempty : Function.update v.queue (.ready level) [] = v.queue := by
      rw [← hqueue, Function.update_eq_self]
    simp [hempty]
  | cons i xs ih =>
    obtain ⟨hnotin, hxs⟩ := List.nodup_cons.1 hnodup
    have hne : Place.ready level ≠ Place.ready (level + 1) := by simp
    have hshift := v.shift_promote_queue hlevel hqueue (hhome i List.mem_cons_self)
    have hrecord : ∀ j, j ≠ i → (v.shift i (Process.promote P)).record j = v.record j :=
      fun j hj => by rw [shift_record, Function.update_of_ne hj]
    rw [List.foldl_cons, ih]
    · refine View.ext ?_ ?_ rfl rfl rfl rfl
      · funext j
        by_cases hj : j = i
        · subst hj
          simp [hnotin]
        · simp [hrecord j hj, hj]
      · simp only [hshift, Function.update_self]
        funext place
        by_cases h₁ : place = .ready (level + 1)
        · subst h₁
          simp
        · by_cases h₂ : place = .ready level
          · subst h₂
            simp
          · simp [h₁, h₂]
    · rw [hshift, Function.update_of_ne hne, Function.update_self]
    · exact hxs
    · intro j hj
      rw [hrecord j (by rintro rfl; exact hnotin hj)]
      exact hhome j (List.mem_cons_of_mem _ hj)

/-- Lifting one more level. -/
theorem Valid.lift_step (h : v.Valid P none)
    (hlt : ∀ i, (v.record i).stage ≠ .unused → i < P.capacity) {k : Nat} (hk : k < P.maxPriority) :
    { v.lift P (k + 1) with
      record := fun i => if i ∈ v.queue (.ready k) then ((v.lift P (k + 1)).record i).promote P
        else (v.lift P (k + 1)).record i
      queue := Function.update (Function.update (v.lift P (k + 1)).queue (.ready k) [])
        (.ready (k + 1)) ((v.lift P (k + 1)).queue (.ready (k + 1)) ++ v.queue (.ready k)) } =
      v.lift P k := by
  have hmem : ∀ i, i ∈ v.queue (.ready k) ↔
      (v.record i).stage = .runnable ∧ (v.record i).priority = k := by
    intro i
    rw [h.mem_iff, Process.home_eq_ready_iff]
    exact ⟨fun hi => hi.2.1, fun hs => ⟨hlt i (by simp [hs.1]), hs, nofun⟩⟩
  refine View.ext ?_ ?_ rfl rfl rfl rfl
  · funext i
    simp only [lift, hmem]
    by_cases hs : (v.record i).stage = .runnable
    · -- above `k` a slot has been raised already, at `k` it is raised now
      rcases Nat.lt_trichotomy (v.record i).priority k with hlt | heq | hgt
      · simp [hs, Nat.ne_of_lt hlt, Nat.not_le_of_lt hlt, Nat.not_le_of_lt (Nat.lt_succ_of_lt hlt)]
      · simp only [hs, heq, Nat.not_succ_le_self, Nat.le_refl, and_self, and_false, if_true,
          if_false]
      · simp [hs, Nat.ne_of_gt hgt, Nat.le_of_lt hgt, Nat.succ_le_of_lt hgt]
    · simp [hs]
  · funext place
    rcases place with s | level
    · simp [lift]
    · rcases eq_or_ne level (k + 1) with rfl | h₁
      · simp [lift, Nat.succ_le_of_lt hk]
      · rcases eq_or_ne level k with rfl | h₂
        · simp [lift, hk]
        · have e₁ : k + 1 ≤ level ↔ k ≤ level := by omega
          have e₂ : k + 1 < level ↔ k < level := by omega
          change Function.update (Function.update _ _ _) _ _ (Place.ready level) = _
          rw [Function.update_of_ne (by simpa using h₁), Function.update_of_ne (by simpa using h₂)]
          simp only [lift, e₁, e₂]

theorem lift_maxPriority : v.lift P P.maxPriority = v := by
  refine View.ext ?_ ?_ rfl rfl rfl rfl
  · funext i
    simp only [lift]
    split
    · rw [Process.promote, if_neg (Nat.not_lt.2 (by tauto))]
    · rfl
  · funext place
    rcases place with s | level
    · rfl
    · have h₁ : ¬ (P.maxPriority ≤ level ∧ level < P.maxPriority) := by omega
      have h₂ : ¬ (P.maxPriority < level ∧ level ≤ P.maxPriority) := by omega
      simp [lift, h₁, h₂]

end View

namespace Table

variable {t : Table P} {i : Slot}

/-! ### Records -/

theorem SoundBut.yields_charge {loose : Option Slot} {now : Nat} (h : t.SoundBut loose)
    (hhome : loose = some i) :
    Yields (i < P.capacity) (t.charge i now) fun t' =>
      i < P.capacity ∧ t'.SoundBut loose ∧ t'.view = t.view.revise i (·.charge P.budget now) :=
  h.yields_revise (Nat.le_trans Process.charge_priority_le (h.valid.priority_le i)) fun hne =>
    absurd hhome hne

/-- Raising a slot that is below the top. -/
theorem SoundBut.yields_raise {loose : Option Slot} (h : t.SoundBut loose)
    (hlt : (t.record i).priority < P.maxPriority)
    (hhome : loose ≠ some i → (t.record i).stage ≠ .runnable) :
    Yields (i < P.capacity ∧ P.maxPriority < word32) (t.raise i) fun t' =>
      t'.SoundBut loose ∧ t'.view = t.view.revise i (Process.promote P) := by
  unfold raise
  refine (yields_process.restrict And.left).bind ?_
  rintro p ⟨hi, hp⟩
  subst hp
  refine (yields_addBelow.restrict fun hg => Nat.lt_of_le_of_lt hlt hg.2).bind ?_
  rintro priority ⟨_, hpriority⟩
  subst hpriority
  have hpromote : (t.record i).promote P =
      { t.record i with priority := (t.record i).priority + 1, budget := P.budget } := if_pos hlt
  refine ((h.yields_revise ?_ ?_).restrict And.left).weaken fun t' ⟨_, h', hview⟩ => ⟨h', ?_⟩
  · exact hlt
  · intro hne
    rw [← hpromote, Process.promote_home_of_ne (hhome hne)]
  · rw [hview, View.revise, View.revise, view_record, hpromote]

/-! ### The sweep -/

theorem setChain_ready {level : Nat} (hlevel : level < P.maxPriority + 1) (c : Chain) :
    t.setChain c (.ready level) = { t with ready := t.ready.set level c } := by
  have hset : t.ready.setIfInBounds level c = t.ready.set level c := by
    ext k hk
    simp [Vector.getElem_setIfInBounds, Vector.getElem_set]
  rw [setChain, hset]

/-- Appending to the ready level of a loose slot, spelt out. -/
theorem enlist_of_ready {level : Nat} (hi : i < P.capacity) (hlevel : level < P.maxPriority + 1)
    (hhome : (t.record i).home = .ready level) :
    t.enlist i = do
      let (c, links) ← t.ready[level].push t.links i
      return { t with links, ready := t.ready.set level c } := by
  have hchain : t.chain? (t.record i).home = some t.ready[level] := by
    rw [hhome]
    exact Vector.getElem?_eq_getElem hlevel
  unfold enlist
  rw [process_of_lt hi]
  change (t.homeChain (t.record i) >>= _) = _
  rw [homeChain_eq_ok hchain, hhome]
  simp only [setChain_ready hlevel]
  rfl

/-- The first slot of a ready level goes to the end of the next one. -/
theorem Sound.yields_liftLevel_succ (h : t.Sound) {level : Nat} (hlevel : level < P.maxPriority)
    {xs : List Slot} (hqueue : t.queue (.ready level) = i :: xs) {k : Nat} {Q : Table P → Prop}
    (rest : ∀ t' : Table P, t'.Sound → t'.view = t.view.shift i (Process.promote P) →
      Yields (P.maxPriority < word32) (liftLevel level hlevel k t') Q) :
    Yields (P.maxPriority < word32) (liftLevel level hlevel (k + 1) t) Q := by
  have hchain : t.chain? (.ready level) = some t.ready[level] :=
    Vector.getElem?_eq_getElem (by omega)
  have hc := h.threaded _ _ hchain
  rw [hqueue] at hc
  obtain ⟨hi, hhome, -⟩ := (h.valid.mem_iff (.ready level) i).1 (by simp [hqueue])
  rw [view_record] at hhome
  obtain ⟨hstage, hpriority⟩ := Process.home_eq_ready_iff.1 hhome
  obtain ⟨c, links, e, hc', same⟩ := hc.pop
  obtain ⟨hthreaded, hview⟩ := h.threaded.relink (by rw [hchain]; rfl) hc'
    fun place hne j hj => same j (by
      rintro rfl
      exact h.not_mem_of_ne hne hj (by simp [hqueue]))
  rw [setChain_ready (by omega)] at hthreaded hview
  unfold liftLevel
  refine .bind_eq e ?_
  dsimp only at hthreaded hview ⊢
  generalize ({ t with links, ready := t.ready.set level c } : Table P) = t₁ at hthreaded hview ⊢
  replace hview : t₁.view = t.view.drop i := by
    rw [hview, View.drop]
    simp [hhome, hqueue]
  -- between `pop` and `enlist` the slot is loose
  have h₁ : t₁.SoundBut (some i) := ⟨hthreaded, by rw [hview]; exact h.valid.drop (by
    rw [view_record, hhome, view_queue, hqueue]; exact hc.nodup)⟩
  have hrecord : t₁.record = t.record := congrArg View.record hview
  refine ((h₁.yields_raise (by rw [hrecord, hpriority]; exact hlevel)
    fun hne => absurd rfl hne).restrict fun hg => ⟨hi, hg⟩).bind ?_
  rintro t₂ ⟨h₂, hview₂⟩
  have hrecord₂ : (t₂.record i).home = .ready (level + 1) := by
    rw [← view_record, hview₂, View.revise_record, Function.update_self, view_record, hrecord,
      Process.promote_home_of_runnable hstage (by omega), hpriority]
  have henlist := enlist_of_ready hi (Nat.succ_lt_succ hlevel) hrecord₂
  have hrest : Yields (P.maxPriority < word32) (t₂.enlist i >>= liftLevel level hlevel k) Q := by
    refine (h₂.yields_enlist.restrict fun _ => hi).bind ?_
    rintro t₃ ⟨_, h₃, hview₃⟩
    refine rest t₃ h₃ ?_
    rw [hview₃, hview₂, hview]
    rfl
  rw [henlist, bind_assoc] at hrest
  exact hrest

/-- Emptying one ready level. -/
theorem Sound.yields_liftLevel (h : t.Sound) {level : Nat} (hlevel : level < P.maxPriority)
    {xs : List Slot} (hqueue : t.queue (.ready level) = xs) {k : Nat} (hk : xs.length < k) :
    Yields (P.maxPriority < word32) (liftLevel level hlevel k t) fun t' =>
      t'.Sound ∧ t'.view = xs.foldl (fun v i => v.shift i (Process.promote P)) t.view := by
  induction xs generalizing t k with
  | nil =>
    cases k with
    | zero => simp at hk
    | succ k =>
      have hchain : t.chain? (.ready level) = some t.ready[level] :=
        Vector.getElem?_eq_getElem (by omega)
      have hc := h.threaded _ _ hchain
      rw [hqueue] at hc
      unfold liftLevel
      exact .bind_eq hc.pop_nil (.pure ⟨h, rfl⟩)
  | cons i xs ih =>
    cases k with
    | zero => simp at hk
    | succ k =>
      refine h.yields_liftLevel_succ hlevel hqueue fun t' h' hview => ?_
      have hhome := ((h.valid.mem_iff (.ready level) i).1 (by simp [hqueue])).2.1
      have hqueue' : t'.queue (.ready level) = xs := by
        rw [← view_queue, hview, View.shift_promote_queue hlevel hqueue hhome]
        simp
      rw [List.foldl_cons, ← hview]
      exact ih h' hqueue' (by simpa using hk)

theorem Sound.yields_liftLevels (h : t.Sound) {v : View} (hv : v.Valid P none)
    (hlt : ∀ i, (v.record i).stage ≠ .unused → i < P.capacity) {k : Nat} (hk : k ≤ P.maxPriority)
    (hview : t.view = v.lift P k) :
    Yields (P.maxPriority < word32) (liftLevels k hk t) fun t' =>
      t'.Sound ∧ t'.view = v.lift P 0 := by
  induction k generalizing t with
  | zero => exact .ok ⟨h, hview⟩
  | succ k ih =>
    have hqueue : t.queue (.ready k) = v.queue (.ready k) := by
      have h₁ : ¬ k + 1 ≤ k := by omega
      have h₂ : ¬ k + 1 < k := by omega
      rw [← view_queue, hview]
      simp only [View.lift, h₁, h₂, false_and, if_false, List.append_nil]
    have hchain : t.chain? (.ready k) = some t.ready[k] := Vector.getElem?_eq_getElem (by omega)
    have hc := h.threaded _ _ hchain
    unfold liftLevels
    refine (h.yields_liftLevel hk rfl (by rw [hc.len_eq]; omega)).bind ?_
    rintro t' ⟨h', hview'⟩
    refine ih h' (Nat.le_of_succ_le hk) ?_
    rw [hview', View.foldl_shift_promote hk (congrFun view_queue _) hc.nodup fun i hi =>
      ((h.valid.mem_iff (.ready k) i).1 hi).2.1, hqueue, hview, hv.lift_step hlt hk]

/-- Raising some slots in place, all of them off the ready levels. -/
theorem Sound.yields_foldlM_raiseInPlace (h : t.Sound) {xs : List Slot} (hnodup : xs.Nodup)
    (hxs : ∀ i ∈ xs, i < P.capacity ∧ (t.record i).stage ≠ .runnable) :
    Yields (P.maxPriority < word32) (xs.foldlM raiseInPlace t) fun t' =>
      t'.Sound ∧ t'.view = { t.view with
        record := fun i => if i ∈ xs then (t.record i).promote P else t.record i } := by
  induction xs generalizing t with
  | nil => exact .ok ⟨h, by simp [view]⟩
  | cons i xs ih =>
    obtain ⟨hnotin, hrest⟩ := List.nodup_cons.1 hnodup
    obtain ⟨hi, hstage⟩ := hxs i List.mem_cons_self
    have hraise : Yields (P.maxPriority < word32) (t.raiseInPlace i) fun t' =>
        t'.Sound ∧ t'.view = t.view.revise i (Process.promote P) := by
      unfold raiseInPlace
      refine .bind_eq (process_of_lt hi) ?_
      split
      · exact (h.yields_raise ‹_› fun _ => hstage).restrict fun hg => ⟨hi, hg⟩
      · refine .ok ⟨h, ?_⟩
        rw [View.revise, view_record, Process.promote, if_neg ‹_›, Function.update_eq_self]
        rfl
    rw [List.foldlM_cons]
    refine hraise.bind ?_
    rintro t' ⟨h', hview⟩
    have hrecord : t'.record = Function.update t.record i ((t.record i).promote P) :=
      congrArg View.record hview
    have hother : ∀ j ∈ xs, t'.record j = t.record j := by
      intro j hj
      rw [hrecord, Function.update_of_ne (by rintro rfl; exact hnotin hj)]
    refine (ih h' hrest fun j hj => ?_).weaken ?_
    · rw [hother j hj]
      exact hxs j (List.mem_cons_of_mem _ hj)
    · rintro t'' ⟨h'', hview''⟩
      refine ⟨h'', ?_⟩
      rw [hview'', hview]
      refine View.ext (funext fun j => ?_) rfl rfl rfl rfl rfl
      by_cases hj : j = i
      · subst hj
        simp [hnotin, hrecord]
      · simp [hrecord, hj]

/-- The sweep, in one formula. -/
theorem Sound.yields_sweep (h : t.Sound) :
    Yields (P.maxPriority < word32) t.sweep fun t' => t'.Sound ∧ t'.view = t.view.sweep P := by
  unfold sweep
  refine (h.yields_liftLevels h.valid (fun i => lt_of_stage_ne) (Nat.le_refl _)
    View.lift_maxPriority.symm).bind ?_
  rintro t₁ ⟨h₁, hview₁⟩
  have hrecord₁ : ∀ i, t₁.record i =
      if (t.record i).stage = .runnable then (t.record i).promote P else t.record i := by
    intro i
    rw [← view_record, hview₁]
    simp [View.lift]
  have hstage₁ : ∀ i, (t₁.record i).stage = (t.record i).stage := by
    intro i
    rw [hrecord₁]
    split <;> simp
  -- the ready levels are done; running and sleeping slots are raised in place
  refine (h₁.yields_foldlM_raiseInPlace (h₁.nodup_members (by simp)) fun i hi => ?_).bind
    fun t₂ ⟨h₂, hview₂⟩ => ?_
  · obtain ⟨hlt, hrunning⟩ := h₁.mem_members_iff.1 hi
    exact ⟨hlt, by simp [hrunning]⟩
  have hrecord₂ : ∀ i, t₂.record i = if i ∈ t₁.members .running then (t₁.record i).promote P
      else t₁.record i := by
    intro i
    rw [← view_record, hview₂]
  have hstage₂ : ∀ i, (t₂.record i).stage = (t.record i).stage := by
    intro i
    rw [hrecord₂]
    split <;> simp [hstage₁]
  refine (h₂.yields_foldlM_raiseInPlace (h₂.nodup_members (by simp)) fun i hi => ?_).weaken
    fun t₃ ⟨h₃, hview₃⟩ => ⟨h₃, ?_⟩
  · obtain ⟨hlt, hsleeping⟩ := h₂.mem_members_iff.1 hi
    exact ⟨hlt, by simp [hsleeping]⟩
  rw [hview₃, hview₂, hview₁]
  refine View.ext (funext fun i => ?_) rfl rfl rfl rfl rfl
  have hrunning : i ∈ t₁.members .running ↔ (t.record i).stage = .running := by
    rw [h₁.mem_members_iff_of_ne (by simp), hstage₁]
  have hsleeping : i ∈ t₂.members .sleeping ↔ (t.record i).stage = .sleeping := by
    rw [h₂.mem_members_iff_of_ne (by simp), hstage₂]
  simp only [View.sweep, view_record, hrecord₂, hrecord₁, hrunning, hsleeping,
    Stage.isActive_iff]
  by_cases hs : (t.record i).stage = .runnable
  · simp [hs]
  · by_cases hr : (t.record i).stage = .running
    · simp [hr]
    · simp [hs, hr]

theorem Sound.yields_sweepIfDue (h : t.Sound) {now : Nat} :
    Yields (P.maxPriority < word32 ∧ now + P.sweepEvery < word64) (t.sweepIfDue now) fun t' =>
      t'.Sound ∧ t'.view = t.view.sweepIfDue P now := by
  unfold sweepIfDue View.sweepIfDue
  rw [view_sweepAt]
  split
  · refine (h.yields_sweep.restrict And.left).bind ?_
    rintro t₁ ⟨h₁, hview₁⟩
    refine (yields_addBelow.restrict And.right).bind fun sweepAt ⟨_, hsweepAt⟩ => .pure ⟨?_, ?_⟩
    · exact h₁.of_eq rfl rfl rfl h₁.valid.marker_lt h₁.valid.marker_inj
    · rw [← hview₁, hsweepAt]
      rfl
  · exact .ok ⟨h, rfl⟩

/-! ### Priorities -/

/-- A priority is refused, or the slot of a process with the pid is put on the level. -/
theorem Orderly.yields_setPriority (h : t.Orderly) {pid : Pid} {priority : Nat} :
    Yields True (t.setPriority pid priority) fun
      | .error _ => True
      | .ok t' => t'.Orderly ∧ priority ≤ P.maxPriority ∧ ∃ i, (t.record i).pid = pid ∧
          (t.record i).stage.isActive ∧ t'.view = t.view.assign P i priority := by
  unfold setPriority
  by_cases hpriority : P.maxPriority < priority
  · rw [if_pos hpriority]
    exact .ok trivial
  rw [if_neg hpriority]
  have hfind := h.sound.find_eq_ok pid [.running, .runnable, .sleeping]
  refine .bind_eq hfind ?_
  split
  · exact .ok trivial
  · rename_i i hi
    rw [hi] at hfind
    obtain ⟨-, hlt, hpid, hstage⟩ := h.sound.of_find_eq_some hfind
    have hactive : (t.record i).stage.isActive = true := by
      simpa [Stage.isActive_iff, or_left_comm] using hstage
    refine .bind_eq (process_of_lt hlt) ?_
    -- the slot moves to another level or is changed in place; either way this is left to be done
    have hassign : ∀ t' : Table P, t'.Sound → t'.view = t.view.assign P i priority →
        Yields True (do return .ok (← t'.settle) : Except Fault (Except Refusal (Table P))) fun
          | .error _ => True
          | .ok t' => t'.Orderly ∧ priority ≤ P.maxPriority ∧ ∃ i, (t.record i).pid = pid ∧
              (t.record i).stage.isActive ∧ t'.view = t.view.assign P i priority := by
      intro t' h' hview
      have h'' : t'.Orderly := by
        refine h.of_update (i := i) h' ((congrArg View.record hview).trans (View.assign_record ..))
          id ((congrArg View.marker hview).trans (View.assign_marker ..))
      refine h''.yields_settle.bind fun t'' heq => ?_
      subst heq
      exact .pure ⟨h'', Nat.le_of_not_lt hpriority, i, hpid, hactive, hview⟩
    dsimp only
    split
    · rename_i hmoves
      refine h.sound.yields_shift_then (Nat.le_of_not_lt hpriority) (fun _ => ⟨hlt, hmoves.1⟩)
        fun t' _ _ h' hview => hassign t' h' ?_
      exact hview.trans (if_pos hmoves).symm
    · rename_i hstays
      refine ((h.sound.yields_revise (Nat.le_of_not_lt hpriority) fun _ => ?_).restrict
        fun _ => hlt).bind fun t' ⟨_, h', hview⟩ => hassign t' h' ?_
      · exact Process.home_congr rfl fun hs => (not_not.1 fun hne => hstays ⟨hs, hne⟩).symm
      · exact hview.trans (if_neg hstays).symm

end Table

end FeedbackQueue
