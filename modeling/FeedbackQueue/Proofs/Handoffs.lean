import FeedbackQueue.Proofs.Courses
import FeedbackQueue.Proofs.Lives

/-!
# Handoffs

A handoff that a dispatch has given out is good until its CPU is taken back: the CPU stays with the
slot, no other CPU gets it, and the slot stays with its process.  A reclaim compares slots only; as
long as handoffs are not forged this is enough.

## Main definitions

* `View.Serves` : a CPU is on the process of a handoff.
* `Machine.Keeps`, `Machine.Honest` : an event does not take a CPU back; it does so with a handoff
  that is out, if at all.
* `Machine.Reserves`, `Machine.Paired` : what a handoff promises, and how handoffs and CPUs match.

## Main statements

* `Machine.turns_of_perform_eq_ok` : what an event does to CPUs and handoffs.
* `Machine.handoffs_of_reaches` : a handoff keeps its promise until its CPU is taken back, and in
  honest runs one is out for every CPU in use.
-/

namespace FeedbackQueue

namespace View

variable {P : Params} {v w : View} {acts : List Act} {a : Act} {cpu : Cpu} {handoff : Handoff}

/-- A CPU is on the process of a handoff. -/
def Serves (v : View) (cpu : Cpu) (handoff : Handoff) : Prop :=
  v.marker cpu = some handoff.slot ∧ (v.record handoff.slot).pid = handoff.pid

/-- A CPU in use is on the process of one handoff. -/
theorem Serves.eq {handoff' : Handoff} (h : v.Serves cpu handoff) (h' : v.Serves cpu handoff') :
    handoff = handoff' := by
  have hslot : handoff.slot = handoff'.slot := Option.some.inj (h.1.symm.trans h'.1)
  have hpid : handoff.pid = handoff'.pid := by rw [← h.2, ← h'.2, hslot]
  cases handoff
  cases handoff'
  rw [Handoff.mk.injEq]
  exact ⟨hslot, hpid⟩

/-- A CPU stays with its process unless it is taken back. -/
theorem Serves.apply (h : v.Serves cpu handoff) (he : a.Enabled v) (hv : v.AllStarted)
    (hkeep : ∀ i now, a ≠ .reclaim cpu i now) : (a.apply P v).Serves cpu handoff := by
  have hm : v.Marked handoff.slot := ⟨cpu, h.1⟩
  refine ⟨Act.marker_apply he h.1 hkeep, ?_⟩
  rw [(Act.started_apply (P := P) he (hv _ hm) ?_).2]
  · exact h.2
  · rintro j hj rfl
    exact Act.not_marked_of_writes he hv hj hm

/-- A CPU that is on a process was so before, or has just taken it. -/
theorem serves_of_apply (he : a.Enabled v) (hv : v.AllStarted)
    (h : (a.apply P v).Serves cpu handoff) :
    v.Serves cpu handoff ∨ ∃ now, a = .dispatch cpu handoff now := by
  obtain ⟨slot, pid⟩ := handoff
  rcases Act.marked_of_apply he h.1 with hcpu | ⟨pid', now, rfl⟩
  · have hm : v.Marked slot := ⟨cpu, hcpu⟩
    refine .inl ⟨hcpu, ?_⟩
    rw [← (Act.started_apply (P := P) he (hv _ hm) ?_).2]
    · exact h.2
    · rintro j hj rfl
      exact Act.not_marked_of_writes he hv hj hm
  · refine .inr ⟨now, ?_⟩
    have hpid : ((v.dispatch slot cpu now).record slot).pid = pid := h.2
    obtain ⟨-, -, -, rfl⟩ := he
    rw [dispatch, mark_record, shift_record, Function.update_self] at hpid
    rw [← hpid]
    rfl

/-- Processes on CPUs have started, and the CPUs and processes of handoffs stay the same. -/
theorem Follows.serves_iff (h : v.Follows P acts w) (hv : v.AllStarted)
    (hacts : ∀ a ∈ acts, a.isQuiet = true) :
    w.AllStarted ∧ ∀ cpu handoff, w.Serves cpu handoff ↔ v.Serves cpu handoff := by
  refine h.preserves (I := fun w => w.AllStarted ∧
    ∀ cpu handoff, w.Serves cpu handoff ↔ v.Serves cpu handoff) ⟨hv, fun _ _ => .rfl⟩ ?_
  rintro u a ha he ⟨hu, hiff⟩
  refine ⟨Act.allStarted_apply he hu, fun cpu handoff => ?_⟩
  rw [← hiff]
  constructor
  · intro hs
    refine (serves_of_apply he hu hs).resolve_right ?_
    rintro ⟨now, rfl⟩
    exact absurd (hacts _ ha) nofun
  · refine fun hs => hs.apply he hu ?_
    rintro i now rfl
    exact absurd (hacts _ ha) nofun

end View

namespace Machine

variable {P : Params} {m m₁ m₂ : Machine P} {e : Event} {p : Progress} {t : Table P} {now : Nat}
  {cpu : Cpu} {handoff : Handoff} {i : Slot} {files : Multiset FileHandle}

/-- An event does not take back a CPU. -/
def Keeps (cpu : Cpu) (_ : Machine P) (e : Event) : Prop :=
  ∀ handoff, e.givesBack ≠ some (cpu, handoff)

/-- A handoff that an event gives back is out. -/
def Honest (m : Machine P) (e : Event) : Prop :=
  ∀ cpu handoff, e.givesBack = some (cpu, handoff) → ∃ cpu', (cpu', handoff) ∈ m.handoffs

/-- What an event does to CPUs and handoffs. -/
inductive Turns (m : Machine P) (e : Event) (p : Progress) (m₁ : Machine P) : Prop
  /-- Nothing. -/
  | quiet (hserves : ∀ cpu handoff,
        m₁.table.view.Serves cpu handoff ↔ m.table.view.Serves cpu handoff)
      (hback : e.givesBack = none) (hout : e.givesOut p = none)
  /-- A CPU takes a process, which no other CPU has. -/
  | dispatch {cpu : Cpu} {handoff : Handoff} (hidle : m.table.view.marker cpu = none)
      (hfree : ¬ m.table.view.Marked handoff.slot)
      (hserves : ∀ cpu' handoff', m₁.table.view.Serves cpu' handoff' ↔
        (cpu' = cpu ∧ handoff' = handoff) ∨ m.table.view.Serves cpu' handoff')
      (hback : e.givesBack = none) (hout : e.givesOut p = some (cpu, handoff))
  /-- A CPU is taken back. -/
  | reclaim {cpu : Cpu} {handoff : Handoff} (hcpu : m.table.view.marker cpu = some handoff.slot)
      (hserves : ∀ cpu' handoff', m₁.table.view.Serves cpu' handoff' ↔
        cpu' ≠ cpu ∧ m.table.view.Serves cpu' handoff')
      (hback : e.givesBack = some (cpu, handoff)) (hout : e.givesOut p = none)

/-- Every event dispatches, takes a CPU back, or leaves the CPUs alone. -/
theorem turns_of_perform_eq_ok (h : m.table.Orderly) (hv : m.table.view.AllStarted)
    (hperform : m.perform e = .ok (p, m₁)) :
    m₁.table.view.AllStarted ∧ m.Turns e p m₁ := by
  obtain ⟨-, -, acts, hfollows, hscript⟩ := of_perform_eq_ok h hperform
  rcases (Event.course_of_script hscript).quiet_or with
    ⟨hquiet, hback, hout⟩ | ⟨cpu, handoff, now, rfl, hout, hback⟩ |
    ⟨cpu, handoff, now, rfl, hback, hout⟩
  · obtain ⟨hv₁, hserves⟩ := hfollows.serves_iff hv hquiet
    exact ⟨hv₁, .quiet hserves hback hout⟩
  · obtain ⟨he, hview⟩ := hfollows
    rw [hview]
    refine ⟨Act.allStarted_apply he hv,
      .dispatch he.1 he.2.2.1 (fun cpu' handoff' => ?_) hback hout⟩
    rw [hview]
    constructor
    · intro hs
      rcases View.serves_of_apply he hv hs with hs | ⟨_, e⟩
      · exact .inr hs
      · cases e
        exact .inl ⟨rfl, rfl⟩
    · -- the new process has the pid of the handoff; all others stay
      rintro (⟨rfl, rfl⟩ | hs)
      · refine ⟨Function.update_self .., ?_⟩
        obtain ⟨-, -, -, hpid⟩ := he
        change ((m.table.view.dispatch handoff'.slot cpu' now).record handoff'.slot).pid = _
        rw [View.dispatch, View.mark_record, View.shift_record, Function.update_self]
        exact hpid.symm
      · exact hs.apply he hv (by simp)
  · obtain ⟨he, hview⟩ := hfollows
    rw [hview]
    refine ⟨Act.allStarted_apply he hv, .reclaim he (fun cpu' handoff' => ?_) hback hout⟩
    rw [hview]
    constructor
    · intro hs
      refine ⟨?_, (View.serves_of_apply he hv hs).resolve_right (by simp)⟩
      rintro rfl
      have hcpu := (congrFun View.reclaim_marker cpu').symm.trans hs.1
      rw [Function.update_self] at hcpu
      cases hcpu
    · rintro ⟨hcpu, hs⟩
      refine hs.apply he hv fun i now' ha => hcpu ?_
      cases ha
      rfl

/-- A grant leaves the CPUs and their processes alone. -/
theorem Grants.serves_iff (h : m.Grants i files t) (hm : m.table.Orderly) :
    t.view.Serves cpu handoff ↔ m.table.view.Serves cpu handoff := by
  rw [View.Serves, View.Serves, (h.quiet hm).1, ((h.calm hm).2 _).pid]

theorem Grants.allStarted (h : m.Grants i files t) (hm : m.table.Orderly)
    (hv : m.table.view.AllStarted) : t.view.AllStarted := by
  rintro j ⟨cpu, hcpu⟩
  rw [(h.quiet hm).1] at hcpu
  exact (h.calm hm).started (hv j ⟨cpu, hcpu⟩)

/-! ### While a handoff is out -/

/-- Processes on CPUs have started, in every run. -/
theorem History.allStarted {steps : List (Step P)} (h : m.History steps m₁)
    (hm : m.table.Orderly) (hv : m.table.view.AllStarted) : m₁.table.view.AllStarted := by
  induction h with
  | nil => exact hv
  | event hrun _ hperform ih => exact (turns_of_perform_eq_ok (hrun.orderly hm) ih hperform).1
  | grant hrun hgrants ih => exact hgrants.allStarted (hrun.orderly hm) ih

theorem Reaches.allStarted {allowed : Machine P → Event → Prop} (h : Reaches allowed m m₁)
    (hm : m.table.Orderly) (hv : m.table.view.AllStarted) : m₁.table.view.AllStarted :=
  let ⟨_, hrun, _⟩ := h
  hrun.allStarted hm hv

/-- A CPU stays with the process of a handoff until it is taken back. -/
theorem Reaches.serves (h : Reaches (Keeps cpu) m m₁) (hm : m.table.Orderly)
    (hv : m.table.view.AllStarted) (hs : m.table.view.Serves cpu handoff) :
    m₁.table.view.Serves cpu handoff := by
  refine h.invariant (I := fun m => m.table.view.Serves cpu handoff) hs
    (fun m₁ e p m₂ hrun hs _ hkeep hperform => ?_)
    fun m₁ i files t hrun hs hgrants => (hgrants.serves_iff (hrun.orderly hm)).2 hs
  cases (turns_of_perform_eq_ok (hrun.orderly hm) (hrun.allStarted hm hv) hperform).2 with
  | quiet hserves => exact (hserves _ _).2 hs
  | dispatch _ _ hserves => exact (hserves _ _).2 (.inr hs)
  | reclaim _ hserves hback =>
    refine (hserves _ _).2 ⟨?_, hs⟩
    rintro rfl
    exact hkeep _ hback

/-- The process that a dispatch has handed out is on its CPU. -/
theorem serves_of_givesOut (h : m.table.Orderly) (hv : m.table.view.AllStarted)
    (hperform : m.perform e = .ok (p, m₁)) (hout : e.givesOut p = some (cpu, handoff)) :
    m₁.table.view.Serves cpu handoff := by
  cases (turns_of_perform_eq_ok h hv hperform).2 with
  | dispatch _ _ hserves _ hout' =>
    rw [hout] at hout'
    cases hout'
    exact (hserves _ _).2 (.inl ⟨rfl, rfl⟩)
  | quiet _ _ hout' | reclaim _ _ _ hout' =>
    rw [hout] at hout'
    cases hout'

/-- A slot is reserved for the process of a handoff: it is on one CPU, it cannot be dispatched, and
it is neither freed nor used anew. -/
structure Reserves (m : Machine P) (cpu : Cpu) (handoff : Handoff) : Prop where
  occupant_iff : ∀ cpu', m.table.occupant? cpu' = some handoff.slot ↔ cpu' = cpu
  pid_eq : (m.table.record handoff.slot).pid = handoff.pid
  ne_unused : (m.table.record handoff.slot).stage ≠ .unused
  ne_embryo : (m.table.record handoff.slot).stage ≠ .embryo
  ne_dispatched : ∀ e p m' cpu' handoff', m.perform e = .ok (p, m') →
    e.givesOut p = some (cpu', handoff') → handoff'.slot ≠ handoff.slot

theorem reserves_of_serves (h : m.table.Orderly) (hv : m.table.view.AllStarted)
    (hs : m.table.view.Serves cpu handoff) : m.Reserves cpu handoff := by
  obtain ⟨hcpu, hpid⟩ := hs
  have hm : m.table.view.Marked handoff.slot := ⟨cpu, hcpu⟩
  refine ⟨fun cpu' => ⟨fun hcpu' => ?_, ?_⟩, hpid, (hv _ hm).1, (hv _ hm).2, ?_⟩
  · exact h.sound.valid.marker_inj cpu' cpu _ hcpu' hcpu
  · rintro rfl
    exact hcpu
  · intro e p m' cpu' handoff' hperform hout hslot
    cases (turns_of_perform_eq_ok h hv hperform).2 with
    | dispatch _ hfree _ _ hout' =>
      rw [hout] at hout'
      cases hout'
      rw [hslot] at hfree
      exact hfree hm
    | quiet _ _ hout' | reclaim _ _ _ hout' =>
      rw [hout] at hout'
      cases hout'

/-! ### All handoffs -/

/-- One handoff is out for every CPU in use, and none else. -/
def Balanced (m : Machine P) : Prop :=
  m.handoffs.Nodup ∧ ∀ cpu handoff, (cpu, handoff) ∈ m.handoffs ↔ m.table.view.Serves cpu handoff

theorem balanced_of_perform_eq_ok (h : m.table.Orderly) (hv : m.table.view.AllStarted)
    (hb : m.Balanced) (hhonest : m.Honest e) (hperform : m.perform e = .ok (p, m₁)) :
    m₁.Balanced := by
  obtain ⟨hnodup, hmem⟩ := hb
  obtain ⟨-, hafter, -⟩ := of_perform_eq_ok h hperform
  have hhandoffs : m₁.handoffs = (m.after e p m₁.table).handoffs := congrArg Machine.handoffs hafter
  unfold Balanced
  rw [hhandoffs]
  simp only [after]
  cases (turns_of_perform_eq_ok h hv hperform).2 with
  | quiet hserves hback hout =>
    rw [hback, hout]
    exact ⟨hnodup, fun cpu handoff => (hmem _ _).trans (hserves _ _).symm⟩
  | @dispatch cpu handoff hidle _ hserves hback hout =>
    rw [hback, hout]
    refine ⟨List.nodup_cons.2 ⟨fun hin => ?_, hnodup⟩, fun cpu' handoff' => ?_⟩
    · -- the CPU was idle, so no handoff was out for it
      have hcpu := ((hmem _ _).1 hin).1
      rw [hidle] at hcpu
      cases hcpu
    · rw [hserves, ← hmem]
      simp
  | @reclaim cpu handoff hcpu hserves hback hout =>
    rw [hback, hout]
    refine ⟨hnodup.erase _, fun cpu' handoff' => ?_⟩
    simp only [Option.toList_none, List.nil_append]
    rw [hnodup.mem_erase_iff, hmem, hserves, and_congr_left_iff]
    intro hs
    rw [not_iff_not, Prod.mk.injEq, and_iff_left_iff_imp]
    rintro rfl
    -- The handoff given back is out, for the CPU that is on its slot.
    obtain ⟨cpu'', hin⟩ := hhonest _ _ hback
    have hs' := (hmem _ _).1 hin
    cases h.sound.valid.marker_inj _ _ _ hs'.1 hcpu
    exact hs.eq hs'

/-- In honest runs one handoff is out for every CPU in use. -/
theorem Reaches.balanced (h : Reaches Honest m m₁) (hm : m.table.Orderly)
    (hv : m.table.view.AllStarted) (hb : m.Balanced) : m₁.Balanced := by
  refine h.invariant (I := Balanced) hb (fun m₁ e p m₂ hrun hb _ hhonest hperform => ?_)
    fun m₁ i files t hrun hb hgrants => ⟨hb.1, fun cpu handoff => ?_⟩
  · exact balanced_of_perform_eq_ok (hrun.orderly hm) (hrun.allStarted hm hv) hb hhonest hperform
  · exact (hb.2 cpu handoff).trans (hgrants.serves_iff (hrun.orderly hm)).symm

/-- The handoffs that are out and the CPUs in use are paired, and a handoff given back that passes
the comparison of slots is out for that CPU and names its process. -/
structure Paired (m : Machine P) : Prop where
  nodup : m.handoffs.Nodup
  serves : ∀ cpu handoff, (cpu, handoff) ∈ m.handoffs →
    m.table.occupant? cpu = some handoff.slot ∧ (m.table.record handoff.slot).pid = handoff.pid
  unique : ∀ cpu i, m.table.occupant? cpu = some i → ∃! handoff, (cpu, handoff) ∈ m.handoffs
  checked : ∀ e, m.Honest e → ∀ cpu handoff, e.givesBack = some (cpu, handoff) →
    m.table.occupant? cpu = some handoff.slot →
      (cpu, handoff) ∈ m.handoffs ∧ (m.table.record handoff.slot).pid = handoff.pid

theorem paired_of_balanced (h : m.table.Orderly) (hb : m.Balanced) : m.Paired := by
  obtain ⟨hnodup, hmem⟩ := hb
  refine ⟨hnodup, fun cpu handoff => (hmem cpu handoff).1, fun cpu i hcpu => ?_, ?_⟩
  · refine ⟨⟨i, (m.table.record i).pid⟩, (hmem _ _).2 ⟨hcpu, rfl⟩, fun handoff hin => ?_⟩
    exact View.Serves.eq ((hmem _ _).1 hin) ⟨hcpu, rfl⟩
  · intro e hhonest cpu handoff hback hcpu
    obtain ⟨cpu', hin⟩ := hhonest cpu handoff hback
    have hs := (hmem _ _).1 hin
    cases h.sound.valid.marker_inj _ _ _ hs.1 hcpu
    exact ⟨hin, hs.2⟩

theorem allStarted_fresh : (View.fresh P now).AllStarted := by
  rintro i ⟨cpu, hcpu⟩
  cases hcpu

theorem balanced_of_create (hcreate : Table.create P now = .ok (.ok t)) :
    Balanced { table := t } := by
  refine ⟨List.nodup_nil, fun cpu handoff => iff_of_false List.not_mem_nil ?_⟩
  rw [(Table.orderly_of_create hcreate).2]
  rintro ⟨hcpu, -⟩
  cases hcpu

/-- **Handoffs stand for CPUs.**  In every run, a handoff that has been given out reserves its slot
until its CPU is taken back; and where no handoff is forged or given back twice, the handoffs that
are out and the CPUs in use are paired. -/
theorem handoffs_of_reaches (hcreate : Table.create P now = .ok (.ok t)) :
    (∀ m₀ m₁ m₂ e p cpu handoff, Reaches (fun _ _ => True) { table := t } m₀ →
      m₀.perform e = .ok (p, m₁) → e.givesOut p = some (cpu, handoff) →
      Reaches (Keeps cpu) m₁ m₂ → m₂.Reserves cpu handoff) ∧
    ∀ m, Reaches Honest { table := t } m → m.Paired := by
  obtain ⟨ht, hview⟩ := Table.orderly_of_create hcreate
  have hv : t.view.AllStarted := hview ▸ allStarted_fresh
  constructor
  · intro m₀ m₁ m₂ e p cpu handoff hrun hperform hout hkeep
    have h₀ := hrun.orderly ht
    have hv₀ := hrun.allStarted ht hv
    have h₁ := (of_perform_eq_ok h₀ hperform).1
    have hv₁ := (turns_of_perform_eq_ok h₀ hv₀ hperform).1
    exact reserves_of_serves (hkeep.orderly h₁) (hkeep.allStarted h₁ hv₁)
      (hkeep.serves h₁ hv₁ (serves_of_givesOut h₀ hv₀ hperform hout))
  · exact fun m hrun => paired_of_balanced (hrun.orderly ht)
      (hrun.balanced ht hv (balanced_of_create hcreate))

/-- The root process is dispatched and opens a file. -/
theorem handoffs_of_dispatching : ∃ (t : Table ⟨1, 0, 1, 1, 1, true⟩) (m : Machine _),
    Table.create _ 0 = .ok (.ok t) ∧ Reaches Honest { table := t } m ∧
      (m.table.record 0).files = [⟨7⟩] ∧ m.handoffs = [(0, ⟨0, 1⟩)] ∧ m.Reserves 0 ⟨0, 1⟩ ∧
      m.Paired := by
  have hhonest : ∀ {m : Machine ⟨1, 0, 1, 1, 1, true⟩} {e : Event}, e.givesBack = none →
      m.Honest e := by
    intro m e hback cpu handoff hsome
    rw [hback] at hsome
    cases hsome
  obtain ⟨t, hcreate, hleads⟩ : ∃ t : Table ⟨1, 0, 1, 1, 1, true⟩,
      Table.create _ 0 = .ok (.ok t) ∧ Leads Honest (fun m => ∃ p m',
        m.perform (.start (.dispatch 0) 0) = .ok (p, m') ∧
          Event.givesOut (.start (.dispatch 0) 0) p = some (0, ⟨0, 1⟩) ∧
          m'.handoffs = [(0, ⟨0, 1⟩)] ∧ ∃ t', m'.Grants 0 {⟨7⟩} t' ∧ (t'.record 0).files = [⟨7⟩])
      [.start (.boot "" []) 0, .answer ⟨none, .allocating 0 (.root "" [])⟩ (some ⟨0⟩) 0,
        .answer ⟨none, .mapping 0 "" []⟩ (some ⟨0⟩) 0] { table := t } := by
    refine ⟨_, rfl, trivial, hhonest rfl, _, _, rfl, ?_⟩
    refine ⟨List.mem_cons_self, hhonest rfl, _, _, rfl, ?_⟩
    refine ⟨List.mem_cons_self, hhonest rfl, _, _, rfl, ?_⟩
    exact ⟨_, _, rfl, rfl, rfl, _, grants_of_tasks [⟨7⟩] rfl rfl rfl rfl, rfl⟩
  obtain ⟨m, hrun, p, m', hperform, hout, hhandoffs, t', hgrants, hfiles⟩ := hleads.exists_reaches
  have hrun' : Reaches Honest { table := t } { m' with table := t' } :=
    (hrun.event (e := .start (.dispatch 0) 0) trivial (hhonest rfl) hperform).grant hgrants
  obtain ⟨hreserves, hpaired⟩ := handoffs_of_reaches hcreate
  refine ⟨t, { m' with table := t' }, hcreate, hrun', hfiles, hhandoffs, ?_, hpaired _ hrun'⟩
  exact hreserves m m' _ _ p 0 _ (hrun.mono fun _ _ _ => trivial) hperform hout
    (Reaches.refl.grant hgrants)

end Machine

end FeedbackQueue
