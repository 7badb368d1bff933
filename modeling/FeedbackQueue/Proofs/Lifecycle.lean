import FeedbackQueue.Proofs.Sections

/-!
# The lifecycle of a slot

A slot is taken for an embryo, which is started or freed; whoever has started runs, waits for a CPU
or sleeps, until it exits and is reaped.  Every section of every run takes each slot along one edge
of this graph at most, whoever else makes which requests in the meantime.  While a slot is in use
its pid and the tick of its allocation stay, and a kill is not taken back.  A slot has a channel
exactly while it sleeps.

## Main definitions

* `Stage.successors` : the edges of the graph.
* `Process.Advances` : what a section may do to a slot.
* `Process.Attuned` : who sleeps, and nobody else, has a channel.
* `Table.Lawful` : the tables of a run, as far as the lifecycle goes.

## Main statements

* `Act.advances_apply`, `Act.attuned_apply` : what an act does to every slot.
* `Machine.lawful_of_create` : the tables of every run.
-/

namespace FeedbackQueue

/-- The stages that follow a stage in the life of a slot. -/
def Stage.successors : Stage → List Stage
  | .unused => [.embryo]
  | .embryo => [.runnable, .unused]
  | .runnable => [.running]
  | .running => [.runnable, .sleeping, .zombie]
  | .sleeping => [.runnable]
  | .zombie => [.unused]

namespace Process

variable {p q r : Process}

/-- What two records of a process have in common, the second after the first. -/
structure LivesOn (p q : Process) : Prop where
  pid : q.pid = p.pid
  startedAt : q.startedAt = p.startedAt
  killed : p.killed = true → q.killed = true

theorem LivesOn.trans (h : p.LivesOn q) (h' : q.LivesOn r) : p.LivesOn r where
  pid := h'.pid.trans h.pid
  startedAt := h'.startedAt.trans h.startedAt
  killed hp := h'.killed (h.killed hp)

/-- A change of a record along one edge at most, in which a slot in use holds the same process. -/
structure Advances (p q : Process) : Prop where
  stage : q.stage = p.stage ∨ q.stage ∈ p.stage.successors
  livesOn : p.stage ≠ .unused → q.stage ≠ .unused → p.LivesOn q

theorem Advances.of_eq (hstage : q.stage = p.stage) (h : p.LivesOn q) : p.Advances q :=
  ⟨.inl hstage, fun _ _ => h⟩

theorem Advances.refl (p : Process) : p.Advances p := .of_eq rfl ⟨rfl, rfl, id⟩

/-- Who sleeps, and nobody else, has a channel. -/
def Attuned (p : Process) : Prop := p.channel.isSome = true ↔ p.stage = .sleeping

theorem Attuned.of_eq (h : p.Attuned) (hchannel : q.channel = p.channel)
    (hstage : q.stage = p.stage) : q.Attuned := by
  rw [Attuned, hchannel, hstage]
  exact h

theorem attuned_of_none (hchannel : p.channel = none) (hstage : p.stage ≠ .sleeping) :
    p.Attuned := by
  rw [Attuned, hchannel]
  exact iff_of_false nofun hstage

theorem Attuned.channel_eq_none (h : p.Attuned) (hstage : p.stage ≠ .sleeping) :
    p.channel = none := by
  rw [← Option.not_isSome_iff_eq_none]
  exact mt h.1 hstage

theorem attuned_awaken : p.awaken.Attuned := attuned_of_none rfl nofun

end Process

/-! ### Channels -/

namespace View

variable {P : Params} {v w : View} {i : Slot} {c : Channel} {now : Nat} {f : Process → Process}

/-- Who sleeps, and nobody else, has a channel. -/
def Attuned (v : View) : Prop := ∀ i, (v.record i).Attuned

theorem Attuned.of_update {p : Process} (h : v.Attuned) (hp : p.Attuned)
    (hrecord : w.record = Function.update v.record i p) : w.Attuned := by
  intro j
  rw [hrecord, Function.update_apply]
  split
  · exact hp
  · exact h j

/-- A change of one record that leaves it awake, and without a channel. -/
theorem Attuned.of_update_none {p : Process} (h : v.Attuned)
    (hrecord : w.record = Function.update v.record i p) (hchannel : p.channel = none)
    (hstage : p.stage ≠ .sleeping) : w.Attuned :=
  h.of_update (Process.attuned_of_none hchannel hstage) hrecord

/-- A change of one record that leaves channel and stage alone. -/
theorem Attuned.revise (h : v.Attuned) (hchannel : ∀ p, (f p).channel = p.channel)
    (hstage : ∀ p, (f p).stage = p.stage) : (v.revise i f).Attuned :=
  h.of_update ((h i).of_eq (hchannel _) (hstage _)) rfl

theorem Attuned.wake (h : v.Attuned) : (v.wake c).Attuned := by
  intro j
  unfold View.wake
  dsimp only
  split
  · exact Process.attuned_awaken
  · exact h j

theorem Attuned.wakeParent {p : Process} (h : v.Attuned) : (v.wakeParent p).Attuned := by
  unfold View.wakeParent
  split
  · exact h.wake
  · exact h

theorem Attuned.adopt (h : v.Attuned) : (v.adopt P i).Attuned := by
  have hreparent : ∀ xs, (v.reparent i xs).Attuned := by
    intro xs j
    unfold reparent
    dsimp only
    split
    · exact (h j).of_eq rfl rfl
    · exact h j
  unfold View.adopt
  dsimp only
  split
  · split
    · exact (hreparent _).wake
    · exact hreparent _
  · exact hreparent _

theorem Attuned.sweep (h : v.Attuned) : (v.sweep P).Attuned := by
  intro j
  unfold View.sweep
  dsimp only
  split
  · obtain ⟨_, _, e⟩ := (v.record j).promote_eq (P := P)
    rw [e]
    exact (h j).of_eq rfl rfl
  · exact h j

theorem Attuned.sweepIfDue (h : v.Attuned) : (v.sweepIfDue P now).Attuned := by
  unfold View.sweepIfDue
  split
  · exact h.sweep
  · exact h

theorem Attuned.kill (h : v.Attuned) : (v.kill i).Attuned := by
  have hkill : (v.revise i fun p => { p with killed := true }).Attuned :=
    h.revise (fun _ => rfl) fun _ => rfl
  unfold View.kill
  dsimp only
  split
  · exact hkill.of_update Process.attuned_awaken rfl
  · exact hkill

/-- A charge comes first when a process leaves its CPU, and leaves its channel alone. -/
theorem Attuned.leave (h : v.Attuned)
    (hf : ∀ p : Process, (v.record i).channel = p.channel → (f p).Attuned) :
    (v.leave P i now f).Attuned := by
  refine h.of_update ?_ leave_record
  obtain ⟨_, _, e, -⟩ := (v.record i).charge_eq P.budget now
  refine (hf ((v.record i).charge P.budget now) ?_).of_eq rfl rfl
  rw [e]

theorem Attuned.retire (h : v.Attuned) (hi : (v.record i).stage = .running) :
    (v.retire P i now).Attuned := by
  have hadopt : ((v.wakeParent (v.record i)).adopt P i).Attuned := h.wakeParent.adopt
  -- nobody wakes the process that exits, as it is running
  have hrunning : (((v.wakeParent (v.record i)).adopt P i).record i).stage = .running :=
    adopt_running_iff.2 (wakeParent_running_iff.2 hi)
  have hchannel := (hadopt i).channel_eq_none (by rw [hrunning]; nofun)
  have hzombie : (((v.wakeParent (v.record i)).adopt P i).shift i
      (Process.enter .zombie)).Attuned :=
    hadopt.of_update_none (View.shift_record _ _ _) hchannel nofun
  unfold View.retire View.depart
  refine Attuned.revise (Attuned.revise hzombie ?_ ?_) ?_ ?_ <;>
  · exact fun _ => rfl

end View

namespace Act

variable {P : Params} {v : View} {a : Act} {i : Slot}

/-- **After an act as before it, who sleeps and nobody else has a channel.** -/
theorem attuned_apply (h : a.Enabled v) (hv : v.Attuned) : (a.apply P v).Attuned := by
  -- whoever is awake has no channel that it could keep
  have hawake : ∀ {j : Slot} {s : Stage}, (v.record j).stage = s → s ≠ .sleeping →
      (v.record j).channel = none := fun hs hne => (hv _).channel_eq_none (hs ▸ hne)
  cases a with
  | conceive => exact hv.of_update_none View.conceive_record rfl nofun
  | discard => exact hv.of_update_none View.discard_record rfl nofun
  | abandon => exact hv.of_update_none View.abandon_record rfl nofun
  | reap => exact hv.of_update_none View.reap_record rfl nofun
  | crown => exact hv.of_update_none View.crown_record (hawake h.2 nofun) nofun
  | launch => exact hv.of_update_none View.launch_record (hawake h nofun) nofun
  | dispatch cpu handoff now =>
    exact hv.of_update_none (View.shift_record v handoff.slot (Process.dispatch now))
      (hawake h.2.1 nofun) nofun
  | giveStack | surrender | depart | setUid | setGid =>
    rw [apply]
    exact hv.revise (fun _ => rfl) fun _ => rfl
  | copy => exact hv
  | retire => exact hv.retire h.2
  | await | park =>
    rw [apply]
    exact hv.leave fun _ _ => iff_of_true rfl rfl
  | yield =>
    have hchannel := hawake h.2 (by decide)
    rw [apply]
    exact hv.leave fun p hp => Process.attuned_of_none (hp.symm.trans hchannel) (by rintro ⟨⟩)
  | reclaim cpu i now =>
    have hmark : (v.mark cpu none).Attuned := hv
    unfold apply View.reclaim
    dsimp only
    split
    · exact hmark.wakeParent.sweepIfDue
    · exact hmark.sweepIfDue
  | sweep => exact hv.sweep
  | sweepIfDue => exact hv.sweepIfDue
  | wake => exact hv.wake
  | rouse i => exact hv.of_update Process.attuned_awaken (View.shift_record v i Process.awaken)
  | kill => exact hv.kill
  | assign i priority =>
    refine hv.of_update ?_ View.assign_record
    exact (hv i).of_eq rfl rfl

/-! ### Edges -/

/-- The slot that an act itself takes to another stage goes along an edge. -/
theorem mem_successors_of_moves (h : a.Enabled v) (hi : a.moves? = some i) :
    ((a.apply P v).record i).stage ∈ (v.record i).stage.successors := by
  have hedge : ∀ {s : Stage}, (v.record i).stage = s →
      ((a.apply P v).record i).stage ∈ s.successors →
      ((a.apply P v).record i).stage ∈ (v.record i).stage.successors := fun hs hmem => hs ▸ hmem
  cases a <;> cases hi
  case conceive =>
    refine hedge h.2 ?_
    simp [apply, View.conceive_record, Process.conceive, Stage.successors]
  case discard =>
    refine hedge h ?_
    simp [apply, View.discard_record, Stage.successors]
  case abandon =>
    refine hedge h ?_
    simp [apply, View.abandon_record, Stage.successors]
  case crown =>
    refine hedge h.2 ?_
    simp [apply, View.crown_record, Stage.successors]
  case launch =>
    refine hedge h ?_
    simp [apply, View.launch_record, Stage.successors]
  case retire cpu now =>
    obtain ⟨_, _, stage, _, _, e, hphase, -⟩ := v.retire_record_eq (P := P) i i now
    rw [if_pos rfl] at hphase
    refine hedge h.2 ?_
    rw [apply, e]
    simp [Stage.phase_eq_dead.1 hphase, Stage.successors]
  case reap =>
    refine hedge h.2.1 ?_
    simp [apply, View.reap_record, Stage.successors]
  case await =>
    refine hedge h.2.1 ?_
    simp [apply, View.leave_record, Process.bill, Stage.successors]
  case park | yield =>
    refine hedge h.2 ?_
    simp [apply, View.leave_record, Process.bill, Stage.successors]
  case dispatch cpu handoff now =>
    refine hedge h.2.1 ?_
    simp [apply, View.dispatch, Process.dispatch, Stage.successors]

/-- A slot that is in use before and after an act holds the same process. -/
theorem livesOn_apply (h : a.Enabled v) (hi : (v.record i).stage ≠ .unused)
    (hi' : ((a.apply P v).record i).stage ≠ .unused) :
    (v.record i).LivesOn ((a.apply P v).record i) := by
  rcases a.kinds with hcalm | ⟨j, hj⟩ | ⟨cpu, j, now, rfl⟩
  · have hcalm := (calm_apply (P := P) h hcalm).2 i
    exact ⟨hcalm.pid, hcalm.startedAt, hcalm.killed⟩
  · by_cases hij : i = j
    · subst i
      cases a with
      | conceive j now =>
        cases hj
        exact absurd h.2 hi
      | discard j =>
        cases hj
        simp [apply, View.discard_record] at hi'
      | abandon j =>
        cases hj
        simp [apply, View.abandon_record] at hi'
      | reap cpu me j =>
        cases hj
        simp [apply, View.reap_record] at hi'
      | crown j name space =>
        cases hj
        rw [apply, View.crown_record, Function.update_self]
        simp only [Process.enter, Process.crown, Process.rename]
        exact ⟨rfl, rfl, id⟩
      | launch j plan space files cwd =>
        cases hj
        rw [apply, View.launch_record, Function.update_self]
        exact ⟨rfl, rfl, id⟩
      | _ => cases hj
    · rw [record_of_writes hj hij]
      exact ⟨rfl, rfl, id⟩
  · obtain ⟨_, _, _, _, _, e, -⟩ := v.retire_record_eq (P := P) j i now
    rw [apply, e]
    exact ⟨rfl, rfl, id⟩

/-- **An act takes every slot along one edge at most.** -/
theorem advances_apply (h : a.Enabled v) : (v.record i).Advances ((a.apply P v).record i) := by
  refine ⟨?_, livesOn_apply h⟩
  by_cases hi : a.moves? = some i
  · exact .inr (mem_successors_of_moves h hi)
  · rcases (nudged_apply (P := P) h hi).stage with hsame | ⟨hsleeping, hrunnable⟩
    · exact .inl hsame
    · rw [hsleeping, hrunnable]
      exact .inr (by decide)

end Act

namespace View

variable {P : Params} {v w : View}

theorem Becomes.advances (h : v.Becomes P w) (i : Slot) :
    (v.record i).Advances (w.record i) := by
  cases h with
  | same => exact .refl _
  | act he => exact Act.advances_apply he
  | equip =>
    rw [revise_record, Function.update_apply]
    split
    · subst i
      exact .of_eq rfl ⟨rfl, rfl, id⟩
    · exact .refl _

theorem Becomes.attuned (h : v.Becomes P w) (hv : v.Attuned) : w.Attuned := by
  cases h with
  | same => exact hv
  | act he => exact Act.attuned_apply he hv
  | equip => exact hv.revise (fun _ => rfl) fun _ => rfl

end View

/-! ### Runs -/

namespace Table

variable {P : Params} {t : Table P} {tables : List (Table P)}

/-- The tables of a run, one before and one after every section, as far as the lifecycle of slots
goes. -/
structure Lawful (tables : List (Table P)) : Prop where
  /-- From one table to the next every slot goes along one edge at most. -/
  edges : tables.IsChain fun t t' => ∀ i, (t'.record i).stage = (t.record i).stage ∨
    (t'.record i).stage ∈ (t.record i).stage.successors
  /-- As long as a slot is in use, it keeps pid, start and kill. -/
  tenures : ∀ (window : List (Table P)) (i : Slot), window <:+: tables →
    (∀ t ∈ window, (t.record i).stage ≠ .unused) →
    window.Pairwise fun t t' => (t'.record i).pid = (t.record i).pid ∧
      (t'.record i).startedAt = (t.record i).startedAt ∧
      ((t.record i).killed = true → (t'.record i).killed = true)
  /-- A slot has a channel exactly while it sleeps. -/
  channels : ∀ t ∈ tables, ∀ i,
    (t.record i).channel.isSome = true ↔ (t.record i).stage = .sleeping

/-- What every section does, it does all along. -/
theorem advances_of_isChain (ht : t.Orderly) (hattuned : t.view.Attuned)
    (h : (t :: tables).IsChain Section) :
    (t :: tables).IsChain (fun t t' => ∀ i, (t.record i).Advances (t'.record i)) ∧
      ∀ t' ∈ t :: tables, t'.view.Attuned := by
  induction tables generalizing t with
  | nil => exact ⟨.singleton _, List.forall_mem_singleton.2 hattuned⟩
  | cons t' tables ih =>
    obtain ⟨hsection, hrest⟩ := List.isChain_cons_cons.1 h
    obtain ⟨ht', hbecomes⟩ := hsection.becomes ht
    obtain ⟨hchain, hall⟩ := ih ht' (hbecomes.attuned hattuned) hrest
    exact ⟨hchain.cons_cons hbecomes.advances, List.forall_mem_cons.2 ⟨hattuned, hall⟩⟩

/-- Along tables in which a slot is in use it holds the same process. -/
theorem pairwise_livesOn {i : Slot}
    (h : tables.IsChain fun t t' => ∀ i, (t.record i).Advances (t'.record i))
    (hused : ∀ t ∈ tables, (t.record i).stage ≠ .unused) :
    tables.Pairwise fun t t' => (t.record i).LivesOn (t'.record i) := by
  have : IsTrans (Table P) fun t t' => (t.record i).LivesOn (t'.record i) :=
    ⟨fun _ _ _ hab hbc => hab.trans hbc⟩
  rw [← List.isChain_iff_pairwise]
  exact h.imp_of_mem_imp fun t t' ht ht' hadvances =>
    (hadvances i).livesOn (hused t ht) (hused t' ht')

theorem lawful_of_isChain (ht : t.Orderly) (hattuned : t.view.Attuned)
    (h : (t :: tables).IsChain Section) : Lawful (t :: tables) := by
  obtain ⟨hchain, hall⟩ := advances_of_isChain ht hattuned h
  refine ⟨hchain.imp fun _ _ hadvances i => (hadvances i).stage, ?_, hall⟩
  intro window i hwindow hused
  have hinfix := List.IsChain.infix hchain hwindow
  refine (pairwise_livesOn hinfix hused).imp ?_
  exact fun hlives => ⟨hlives.pid, hlives.startedAt, hlives.killed⟩

end Table

namespace Machine

variable {P : Params}

/-- **The lifecycle of slots.**  Every run goes through sections, one after the other, in which the
table is locked, and everything begins where one of them has ended.  Along sections of whatever kind
and in whatever order, every slot follows the graph of the lifecycle, one edge at a time, keeps pid,
start and kill from its allocation until it is freed, and has a channel exactly while it sleeps. -/
theorem lawful_of_create {t : Table P} {now : Nat} (hcreate : Table.create P now = .ok (.ok t)) :
    (∀ steps m, History { table := t } steps m → ∃ tables : List (Table P),
      (t :: tables).IsChain Table.Section ∧ (t :: tables).getLast? = some m.table ∧
        (steps.map (·.before.table)).Sublist (t :: tables)) ∧
    ∀ tables : List (Table P), (t :: tables).IsChain Table.Section →
      Table.Lawful (t :: tables) := by
  obtain ⟨ht, hview⟩ := Table.orderly_of_create hcreate
  refine ⟨fun steps m hrun => hrun.exists_sections, fun tables => ?_⟩
  refine Table.lawful_of_isChain ht fun i => ?_
  rw [hview]
  exact Process.attuned_of_none rfl nofun

/-- The root process starts, sleeps and is killed, which wakes it. -/
theorem lawful_of_killed : ∃ (t t₁ t₂ t₃ t₄ t₅ : Table ⟨1, 0, 1, 1, 1, true⟩),
    Table.create _ 0 = .ok (.ok t) ∧
      [t, t₁, t₂, t₃, t₄, t₅].map (fun u => ((u.record 0).stage, (u.record 0).channel)) =
        [(.unused, none), (.embryo, none), (.runnable, none), (.running, none),
          (.sleeping, some .ticks), (.runnable, none)] ∧
      [t, t₁, t₂, t₃, t₄, t₅].IsChain Table.Section ∧ Table.Lawful [t, t₁, t₂, t₃, t₄, t₅] := by
  obtain ⟨t, t₁, t₂, t₃, t₄, t₅, hcreate, h₁, h₂, h₃, h₄, h₅, hstages⟩ :
      ∃ (t t₁ t₂ t₃ t₄ t₅ : Table ⟨1, 0, 1, 1, 1, true⟩), Table.create _ 0 = .ok (.ok t) ∧
        t.conceive 0 = .ok (some (0, t₁)) ∧ t₁.crown 0 "" ⟨0⟩ = .ok (1, t₂) ∧
        t₂.dispatch 0 0 = .ok (some (⟨0, 1⟩, t₃)) ∧ t₃.park 0 .ticks 0 = .ok t₄ ∧
        t₄.kill 1 = .ok (.ok t₅) ∧
        [t, t₁, t₂, t₃, t₄, t₅].map (fun u => ((u.record 0).stage, (u.record 0).channel)) =
          [(.unused, none), (.embryo, none), (.runnable, none), (.running, none),
            (.sleeping, some .ticks), (.runnable, none)] :=
    ⟨_, _, _, _, _, _, rfl, rfl, rfl, rfl, rfl, rfl, rfl⟩
  have hchain : [t, t₁, t₂, t₃, t₄, t₅].IsChain Table.Section := by
    simp only [List.isChain_cons_cons, List.isChain_singleton, and_true]
    exact ⟨.conceive h₁, .crown h₂, .dispatch h₃, .park h₄, .kill h₅⟩
  exact ⟨t, t₁, t₂, t₃, t₄, t₅, hcreate, hstages, hchain, (lawful_of_create hcreate).2 _ hchain⟩

end Machine

end FeedbackQueue
