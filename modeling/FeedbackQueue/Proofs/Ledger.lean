import FeedbackQueue.Proofs.Custody

/-!
# The ledger

The surrounding machine hands out stacks, address spaces and files, and gets them back.  A ledger of
a run records what has been handed out and given back so far; in disciplined runs it balances with
what slots hold and requests carry.  Once no request carries anything, every stack and every address
space that has been handed out is with exactly one slot in use, or has been given back exactly once.

## Main definitions

* `Ledger` : what has been handed out and given back.
* `Machine.Accounts` : the runs of disciplined events and grants, with their ledgers.
* `Machine.Kept` : nothing is lost by the next event.
* `Machine.Settled` : where everything that has been handed out is.

## Main statements

* `Machine.Kept.of_perform_eq_ok`, `Machine.Kept.of_grants` : events and grants keep it so.
* `Machine.Accounts.balances` : ledgers balance.
* `Machine.settled_of_accounts` : everything is given back exactly once.
-/

namespace FeedbackQueue

open Handle (ofStack ofSpace ofFiles)

/-! ### Requests that wait -/

namespace Act

variable {P : Params} {v : View} {a : Act} {e : Event} {i : Slot}

/-- The embryo that an act furnishes, starts or frees. -/
def builds? : Act → Option Slot
  | giveStack i _ | discard i | abandon i | crown i _ _ | launch i _ _ _ _ => some i
  | _ => none

theorem slot_of_builds (h : e.Owns a) (hi : a.builds? = some i) : e.slot? = some i := by
  cases a <;> cases hi
  case crown => exact Event.slot_of_crowns h
  all_goals exact h

/-- An embryo that an act does not build stays one, with the same stack. -/
theorem embryo_apply (he : a.Enabled v) (hi : (v.record i).stage = .embryo)
    (hbuilds : a.builds? ≠ some i) : ((a.apply P v).record i).stage = .embryo ∧
      ((a.apply P v).holdings i).stack = (v.holdings i).stack := by
  have heq : ∀ {s : Stage}, (v.record i).stage = s → s = .embryo := fun h => h.symm.trans hi
  have hmoves : a.moves? ≠ some i := by
    intro hmoves
    cases a <;> cases hmoves
    case conceive => exact nomatch heq he.2
    case retire | park | yield => exact nomatch heq he.2
    case reap | await | dispatch => exact nomatch heq he.2.1
    case discard | abandon | crown | launch => exact hbuilds rfl
  refine ⟨?_, ?_⟩
  · rw [(nudged_apply he hmoves).stage_eq (fun h => nomatch heq h), hi]
  · rw [apply_holdings]
    cases a with
    | giveStack j | abandon j | crown j | launch j =>
      rw [deal, Function.update_of_ne]
      rintro rfl
      exact hbuilds rfl
    | surrender cpu j =>
      rw [deal, Function.update_apply]
      split
      · subst j
        rfl
      · rfl
    | reap cpu me j =>
      rw [deal, Function.update_of_ne]
      rintro rfl
      exact hmoves rfl
    | _ => rfl

/-- Who has no files gets none, unless it starts. -/
theorem fileless_apply (he : a.Enabled v) (hi : (v.record i).stage ≠ .embryo)
    (h : (v.holdings i).Fileless) : ((a.apply P v).holdings i).Fileless := by
  rw [apply_holdings]
  cases a with
  | launch j =>
    rw [deal, Function.update_of_ne]
    · exact h
    · rintro rfl
      exact hi he
  | giveStack j | abandon j | crown j | surrender _ j | reap _ _ j =>
    rw [deal, Function.update_apply]
    split
    · subst j
      first | exact h | exact ⟨rfl, rfl⟩
    · exact h
  | _ => exact h

end Act

/-- The embryo that a request goes on with. -/
def Task.slot? (task : Task) : Option Slot := task.suspension.slot?

namespace Event

/-- What the request that an event goes on with has carried. -/
def inHand : Event → Multiset Handle
  | start _ _ => 0
  | answer task _ _ => task.suspension.inHand

/-- What an event brings. -/
def issued : Event → Multiset Handle
  | start _ _ => 0
  | answer task reply _ => task.suspension.call.issued reply

end Event

namespace Machine

variable {P : Params} {m m₁ : Machine P} {e : Event} {p : Progress} {other : Task} {i : Slot}
  {acts : List Act} {w : View}

/-- No handle is lost by the next event: no slot holds more than its phase admits, and requests that
wait find the table as they expect it, each with an embryo of its own. -/
structure Kept (m : Machine P) : Prop where
  regular : m.Regular
  tidy : m.table.view.Tidy
  ready : ∀ task ∈ m.tasks, task.suspension.Ready m.table.view
  apart : (m.tasks.filterMap Task.slot?).Nodup

/-- The stretch of an event conserves handles. -/
theorem Kept.conserved_of_perform_eq_ok (h : m.Kept) (hcan : m.CanHappen e)
    (hperform : m.perform e = .ok (p, m₁)) :
    m.table.Conserved (fun i => e.slot? = some i ∨ (m.table.record i).stage = .unused)
      (e.inHand + e.issued) p m₁.table := by
  have hleft : P.audited = true → ∀ cpu handoff, e.givesBack = some (cpu, handoff) →
      ¬ m.table.Misused cpu handoff := fun ha cpu handoff hback hmisused =>
    not_misuses_of_perform_eq_ok h.regular.orderly ha hperform ⟨cpu, handoff, hback, hmisused⟩
  obtain ⟨⟨p', t⟩, hstretch, hafter⟩ := bind_eq_ok.1 hperform
  cases hafter
  cases e with
  | start request clock =>
    obtain ⟨htidy, hbalance, hready, hmine⟩ :=
      (h.regular.orderly.conserves_start h.tidy hleft).of_ok hstretch
    exact ⟨htidy, hbalance, hready, fun i hi => .inr (hmine i hi)⟩
  | answer task reply clock =>
    obtain ⟨htidy, hbalance, hready, hmine⟩ :=
      (h.regular.orderly.conserves_resume h.tidy (h.ready task hcan) hleft).of_ok hstretch
    exact ⟨htidy, hbalance, hready, fun i hi => .inl (hmine i hi)⟩

/-- Where requests have embryos of their own, that of one is not that of another. -/
theorem slot_ne (hapart : (m.tasks.filterMap Task.slot?).Nodup) (hcan : m.CanHappen e)
    (hother : other ∈ m.others e) (hi : other.slot? = some i) : e.slot? ≠ some i := by
  cases e with
  | start => nofun
  | answer task reply clock =>
    intro (hmine : task.slot? = some i)
    have hperm := (List.perm_cons_erase hcan).filterMap Task.slot?
    have hnodup := hperm.nodup_iff.1 hapart
    rw [List.filterMap_cons_some hmine] at hnodup
    exact (List.nodup_cons.1 hnodup).1 (List.mem_filterMap.2 ⟨other, hother, hi⟩)

/-- The other requests find the table as they expect it. -/
theorem Kept.ready_other (h : m.Kept) (hd : m.Disciplined e) (hcan : m.CanHappen e)
    (hfollows : m.table.view.Follows P acts w) (hscript : e.script acts p)
    (hother : other ∈ m.others e) : other.suspension.Ready w := by
  refine (h.ready other (mem_of_mem_others hother)).transfer ?_ ?_
  · intro i hslot hi
    refine hfollows.preserves (I := fun w => (w.record i).stage = .embryo ∧
      (w.holdings i).stack = (m.table.view.holdings i).stack) ⟨hi, rfl⟩ fun v a ha he hv => ?_
    obtain ⟨hstage, hstack⟩ := Act.embryo_apply (P := P) he hv.1 fun hbuilds =>
      slot_ne h.apart hcan hother hslot
        (Act.slot_of_builds (Event.owns_of_script hscript a ha) hbuilds)
    exact ⟨hstage, hstack.trans hv.2⟩
  · -- the process that closes its files stays at work, and nobody gives it others
    intro cpu i hcloses hi hfileless
    obtain ⟨j, hw, -⟩ := h.regular.attended.closing _ (mem_of_mem_others hother) cpu hcloses
    cases hi.symm.trans hw.marker
    have hspares := h.regular.attended.spares hd hcan hfollows (Event.course_of_script hscript)
      hother (Suspension.isSwitched_of_closes hcloses) hw
    have hkept := hfollows.preserves (I := fun w => w.Works cpu i other.caller ∧
      (w.holdings i).Fileless) ⟨hw, hfileless⟩ fun v a ha he hv =>
        ⟨hv.1.apply he (hspares a ha).1 (hspares a ha).2,
          Act.fileless_apply he (by rw [hv.1.running]; nofun) hv.2⟩
    exact ⟨hkept.1.marker, hkept.2⟩

/-- A new embryo has been a free slot, so no other request goes on with it. -/
theorem Kept.slot_not_mem {given : Multiset Handle} {t : Table P}
    (h : m.Kept) (hcan : m.CanHappen e)
    (hconserved : m.table.Conserved (fun i => e.slot? = some i ∨
      (m.table.record i).stage = .unused) given p t) (hi : p.slot? = some i) :
    i ∉ (m.others e).filterMap Task.slot? := by
  intro hmem
  obtain ⟨other, hother, hslot⟩ := List.mem_filterMap.1 hmem
  rcases hconserved.mine i hi with hmine | hunused
  · exact slot_ne h.apart hcan hother hslot hmine
  · have hembryo := (h.ready other (mem_of_mem_others hother)).embryo hslot
    rw [Table.view_record, hunused] at hembryo
    cases hembryo

/-- Requests keep their embryos to themselves. -/
theorem nodup_slots_after {t : Table P} (hapart : (m.tasks.filterMap Task.slot?).Nodup)
    (hnew : ∀ i, p.slot? = some i → i ∉ (m.others e).filterMap Task.slot?) :
    ((m.after e p t).tasks.filterMap Task.slot?).Nodup := by
  have hothers : ((m.others e).filterMap Task.slot?).Nodup := by
    cases e with
    | start => exact hapart
    | answer task => exact hapart.sublist (List.erase_sublist.filterMap _)
  rw [tasks_after]
  cases p with
  | returned => exact hothers
  | waiting s =>
    change ((⟨m.caller e, s⟩ :: m.others e).filterMap Task.slot?).Nodup
    cases hslot : Task.slot? ⟨m.caller e, s⟩ with
    | none =>
      rw [List.filterMap_cons_none hslot]
      exact hothers
    | some i =>
      rw [List.filterMap_cons_some hslot]
      exact List.nodup_cons.2 ⟨hnew i hslot, hothers⟩

/-- **Disciplined events lose no handle.** -/
theorem Kept.of_perform_eq_ok (h : m.Kept) (hd : m.Disciplined e) (hcan : m.CanHappen e)
    (hperform : m.perform e = .ok (p, m₁)) : m₁.Kept := by
  have hconserved := h.conserved_of_perform_eq_ok hcan hperform
  have hregular := h.regular.of_perform_eq_ok hd hcan hperform
  obtain ⟨-, hafter, acts, hfollows, hscript⟩ :=
    Machine.of_perform_eq_ok h.regular.orderly hperform
  have hold : ∀ other ∈ m.others e, other.suspension.Ready m₁.table.view := fun other hother =>
    h.ready_other hd hcan hfollows hscript hother
  generalize m₁.table = t at *
  subst hafter
  refine ⟨hregular, hconserved.tidy, fun task htask => ?_,
    nodup_slots_after h.apart fun i hi => h.slot_not_mem hcan hconserved hi⟩
  rcases mem_tasks_after htask with htask | ⟨s, rfl, rfl⟩
  · exact hold task htask
  · exact hconserved.ready

end Machine

/-! ### Grants -/

namespace Machine

variable {P : Params} {m : Machine P} {i : Slot} {files : Multiset FileHandle} {t : Table P}
  {other : Task}

/-- Requests that wait find the table after a grant as they expect it. -/
theorem Kept.ready_of_grants (h : m.Kept) (hgrants : m.Grants i files t)
    (hother : other ∈ m.tasks) : other.suspension.Ready t.view := by
  obtain ⟨-, files', cwd, hview, -⟩ := hgrants.exists_view h.regular.orderly
  have hholdings := View.holdings_of_update (p := (m.table.record i).equip files' cwd)
    (congrArg View.record hview)
  refine (h.ready _ hother).transfer (fun j _ hj => ⟨?_, ?_⟩) fun cpu j hcloses hj hfileless => ?_
  · rw [hview]
    exact View.equip_stage.trans hj
  · rw [hholdings, Function.update_apply]
    split
    · subst j
      rfl
    · rfl
  · -- for the process that gets files nothing is under way
    obtain ⟨k, hw, -⟩ := h.regular.attended.closing _ hother cpu hcloses
    cases hj.symm.trans hw.marker
    have hji : j ≠ i := by
      rintro rfl
      have hswitched := hgrants.alone _ hother hw.pid_eq
      rw [Suspension.isSwitched_of_closes hcloses] at hswitched
      cases hswitched
    rw [hholdings, Function.update_of_ne hji, hview]
    exact ⟨hj, hfileless⟩

/-- A grant loses no handle. -/
theorem Kept.of_grants (h : m.Kept) (hgrants : m.Grants i files t) :
    Kept { m with table := t } := by
  obtain ⟨-, files', cwd, hview, -⟩ := hgrants.exists_view h.regular.orderly
  refine ⟨h.regular.of_grants hgrants, ?_, fun task => h.ready_of_grants hgrants, h.apart⟩
  refine h.tidy.of_update (p := (m.table.record i).equip files' cwd)
    (congrArg View.record hview) ?_
  rw [show ((m.table.record i).equip files' cwd).stage = .running from hgrants.running]
  trivial

/-- A grant adds to what slots hold the files that it gives. -/
theorem Grants.held (h : m.Grants i files t) (hm : m.table.Orderly) :
    t.view.held P = m.table.view.held P + files.map .file := by
  obtain ⟨-, files', cwd, hview, hadds⟩ := h.exists_view hm
  have hhandles : ((m.table.record i).equip files' cwd).holdings.handles =
      (m.table.record i).holdings.handles + files.map .file := by
    have hfiles : ofFiles (files' ++ cwd.toList) =
        ofFiles ((m.table.record i).files ++ (m.table.record i).cwd.toList) + files.map .file :=
      calc ofFiles (files' ++ cwd.toList)
          = (↑(files' ++ cwd.toList) : Multiset FileHandle).map .file := rfl
        _ = _ := by
          rw [hadds, Multiset.map_add]
          rfl
    simp only [Holdings.handles, Process.holdings, Process.equip, hfiles, add_assoc]
  rw [← add_zero (t.view.held P)]
  exact View.held_of_update (Table.lt_of_stage_eq h.running)
    (View.holdings_of_update (congrArg View.record hview)) ((add_zero _).trans hhandles)

end Machine

/-! ### Ledgers -/

/-- What has been handed out and given back in a run. -/
structure Ledger where
  /-- What the surrounding machine has handed out in its answers. -/
  issued : Multiset Handle := 0
  /-- The files that it has opened on its own. -/
  granted : Multiset FileHandle := 0
  /-- What has been given back to it. -/
  released : Multiset Handle := 0

namespace Ledger

/-- The ledger after an event with a result. -/
def enter (L : Ledger) (e : Event) (p : Progress) : Ledger :=
  { L with issued := L.issued + e.issued, released := L.released + p.released }

/-- The ledger after a grant. -/
def grant (L : Ledger) (files : Multiset FileHandle) : Ledger :=
  { L with granted := L.granted + files }

end Ledger

namespace Machine

/-- The runs of disciplined events and of grants, with their ledgers. -/
inductive Accounts {P : Params} : Machine P → Ledger → Machine P → Ledger → Prop
  /-- The empty run. -/
  | refl {m : Machine P} {L : Ledger} : Accounts m L m L
  /-- A run that begins with an event. -/
  | event {m m₁ m₂ : Machine P} {L L₂ : Ledger} {e : Event} {p : Progress} : m.CanHappen e →
      m.Disciplined e → m.perform e = .ok (p, m₁) → Accounts m₁ (L.enter e p) m₂ L₂ →
      Accounts m L m₂ L₂
  /-- A run that begins with a grant. -/
  | grant {m m₂ : Machine P} {L L₂ : Ledger} {i : Slot} {files : Multiset FileHandle}
      {t : Table P} : m.Grants i files t →
      Accounts { m with table := t } (L.grant files) m₂ L₂ → Accounts m L m₂ L₂

variable {P : Params} {m m₁ : Machine P} {e : Event} {p : Progress} {L L₁ : Ledger}
  {files : Multiset FileHandle} {t : Table P}

/-- What all requests carry. -/
def inHand (m : Machine P) : Multiset Handle :=
  (m.tasks.map fun task => task.suspension.inHand).sum

theorem inHand_eq (hcan : m.CanHappen e) :
    m.inHand = e.inHand + ((m.others e).map fun task => task.suspension.inHand).sum := by
  cases e with
  | start => exact (zero_add _).symm
  | answer task reply clock =>
    exact ((List.perm_cons_erase hcan).map fun task => task.suspension.inHand).sum_eq

theorem inHand_after : (m.after e p t).inHand =
    p.inHand + ((m.others e).map fun task => task.suspension.inHand).sum := by
  rw [inHand, tasks_after]
  cases p with
  | returned => exact (zero_add _).symm
  | waiting s => rfl

/-- The ledger balances: what has been handed out is held, carried, or has been given back. -/
def Balances (m : Machine P) (L : Ledger) : Prop :=
  L.issued + L.granted.map .file = m.table.view.held P + m.inHand + L.released

theorem Balances.enter (h : m.Balances L) (hm : m.Kept) (hcan : m.CanHappen e)
    (hperform : m.perform e = .ok (p, m₁)) : m₁.Balances (L.enter e p) := by
  have hbalance := (hm.conserved_of_perform_eq_ok hcan hperform).balance
  have hafter := (of_perform_eq_ok hm.regular.orderly hperform).2.1
  have hcarried : m₁.inHand =
      p.inHand + ((m.others e).map fun task => task.suspension.inHand).sum := by
    rw [hafter]
    exact inHand_after
  unfold Balances at h ⊢
  rw [inHand_eq hcan] at h
  rw [hcarried]
  generalize ((m.others e).map fun task => task.suspension.inHand).sum = rest at h ⊢
  calc L.issued + e.issued + L.granted.map .file
      = m.table.view.held P + (e.inHand + e.issued) + rest + L.released := by
        rw [add_right_comm, h]
        abel
    _ = m₁.table.view.held P + (p.inHand + rest) + (L.released + p.released) := by
        rw [← hbalance]
        abel

theorem kept_of_create {now : Nat} (hcreate : Table.create P now = .ok (.ok t)) :
    Kept { table := t } := by
  have hview := (Table.orderly_of_create hcreate).2
  refine ⟨regular_of_create hcreate, ?_, nofun, .nil⟩
  rw [hview]
  exact fun i => ⟨rfl, rfl, rfl, rfl⟩

theorem balances_of_create {now : Nat} (hcreate : Table.create P now = .ok (.ok t)) :
    Balances { table := t } {} := by
  have hview := (Table.orderly_of_create hcreate).2
  have hheld : t.view.held P = 0 := by
    rw [hview]
    exact Finset.sum_eq_zero fun _ _ => rfl
  change 0 = t.view.held P + 0 + 0
  rw [hheld]
  rfl

theorem Balances.grant (h : m.Balances L)
    (hheld : t.view.held P = m.table.view.held P + files.map .file) :
    Balances { m with table := t } (L.grant files) := by
  change L.issued + (L.granted + files).map .file = t.view.held P + m.inHand + L.released
  rw [Multiset.map_add, ← add_assoc, h, hheld]
  abel

/-- **Ledgers balance all along.** -/
theorem Accounts.balances (h : Accounts m L m₁ L₁) (hm : m.Kept) (hbalances : m.Balances L) :
    m₁.Kept ∧ m₁.Balances L₁ := by
  induction h with
  | refl => exact ⟨hm, hbalances⟩
  | event hcan hd hperform _ ih =>
    exact ih (hm.of_perform_eq_ok hd hcan hperform) (hbalances.enter hm hcan hperform)
  | grant hgrants _ ih =>
    exact ih (hm.of_grants hgrants) (hbalances.grant (hgrants.held hm.regular.orderly))

/-- Where everything is that has been handed out. -/
structure Settled (m : Machine P) (L : Ledger) : Prop where
  /-- A stack or an address space is with exactly one slot, which is in use, and has never been
  given back, or it is with no slot and has been given back exactly once. -/
  once : ∀ x ∈ L.issued, x.file? = none →
    (∃ i, (m.table.record i).stage ≠ .unused ∧ (m.table.record i).Holds x ∧
      (∀ j, (m.table.record j).Holds x → j = i) ∧ L.released.count x = 0) ∨
    (∀ i, ¬ (m.table.record i).Holds x) ∧ L.released.count x = 1
  /-- The files that processes were given or that were duplicated are those that are open and those
  that have been closed. -/
  files : L.granted + L.issued.filterMap Handle.file? =
    m.table.files + L.released.filterMap Handle.file?
  /-- A free slot holds nothing. -/
  unused : ∀ i, (m.table.record i).stage = .unused →
    (m.table.record i).stack = none ∧ (m.table.record i).space = none ∧
      (m.table.record i).files = [] ∧ (m.table.record i).cwd = none

/-- What a slot holds is held in the table. -/
theorem Kept.mem_held_iff (hm : m.Kept) {x : Handle} :
    x ∈ m.table.view.held P ↔ ∃ i, (m.table.record i).Holds x := by
  refine Multiset.mem_sum.trans ⟨?_, ?_⟩
  · rintro ⟨i, -, hi⟩
    exact ⟨i, Process.mem_handles.1 hi⟩
  · rintro ⟨i, hi⟩
    exact ⟨i, Finset.mem_range.2 (Table.lt_of_stage_ne (hm.tidy.stage_ne hi)),
      Process.mem_handles.2 hi⟩

/-- A handle that is in the table once is with one slot. -/
theorem Kept.existsUnique_holds (hm : m.Kept) {x : Handle}
    (hx : (m.table.view.held P).count x = 1) : ∃! i, (m.table.record i).Holds x := by
  obtain ⟨i, hi, hunique⟩ := View.exists_of_count_held hx
  refine ⟨i, Process.mem_handles.1 hi, fun j hj => hunique j ?_ (Process.mem_handles.2 hj)⟩
  exact Table.lt_of_stage_ne (hm.tidy.stage_ne hj)

theorem Kept.settled (hm : m.Kept) (h : m.Balances L) (hdone : m.inHand = 0)
    (hdistinct : (L.issued.filter fun x => x.file? = none).Nodup) : m.Settled L := by
  unfold Balances at h
  rw [hdone, add_zero] at h
  refine ⟨fun x hx hfile => ?_, ?_, fun i hi => hm.tidy.admits hi⟩
  · have hissued : L.issued.count x = 1 := by
      rw [← Multiset.count_filter_of_pos (p := fun x => x.file? = none) hfile]
      exact Multiset.count_eq_one_of_mem hdistinct (Multiset.mem_filter.2 ⟨hx, hfile⟩)
    have hgranted : (L.granted.map Handle.file).count x = 0 := by
      refine Multiset.count_eq_zero.2 fun hmem => ?_
      obtain ⟨f, -, rfl⟩ := Multiset.mem_map.1 hmem
      cases hfile
    have hcount := congrArg (Multiset.count x) h
    rw [Multiset.count_add, Multiset.count_add, hissued, hgranted] at hcount
    by_cases hheld : (m.table.view.held P).count x = 1
    · obtain ⟨i, hi, hunique⟩ := hm.existsUnique_holds hheld
      exact .inl ⟨i, hm.tidy.stage_ne hi, hi, hunique, by omega⟩
    · refine .inr ⟨fun i hi => ?_, by omega⟩
      have hpos := Multiset.count_pos.2 (hm.mem_held_iff.2 ⟨i, hi⟩)
      omega
  · have hfiles := congrArg (Multiset.filterMap Handle.file?) h
    rw [Multiset.filterMap_add, Multiset.filterMap_add, Table.filterMap_held,
      Multiset.filterMap_map] at hfiles
    rw [← hfiles, add_comm]
    exact congrArg _ (Multiset.filterMap_some _).symm

/-- **Whatever is handed out in a disciplined run is given back exactly once.**  The stacks and
address spaces handed out are taken to be distinct, and no request is in the middle of something:
those that wait carry nothing. -/
theorem settled_of_accounts {now : Nat} (hcreate : Table.create P now = .ok (.ok t))
    (hrun : Accounts { table := t } {} m L)
    (hdistinct : (L.issued.filter fun x => x.file? = none).Nodup)
    (hdone : ∀ task ∈ m.tasks, task.suspension.inHand = 0) : m.Settled L := by
  obtain ⟨hm, hbalances⟩ := hrun.balances (kept_of_create hcreate) (balances_of_create hcreate)
  exact hm.settled hbalances (List.sum_eq_zero (by simpa using hdone)) hdistinct

/-- A run in which the root process opens a file, and then fails to fork. -/
theorem settled_of_undone : ∃ (t : Table ⟨2, 0, 1, 1, 1, true⟩) (m : Machine _) (L : Ledger),
    Table.create _ 0 = .ok (.ok t) ∧ Accounts { table := t } {} m L ∧
      L.granted = { ⟨7⟩ } ∧ L.released = { .stack ⟨1⟩ } ∧ m.Settled L := by
  obtain ⟨t, m, L, hcreate, hrun, hissued, hgranted, hreleased, htasks⟩ :
      ∃ (t : Table ⟨2, 0, 1, 1, 1, true⟩) (m : Machine _) (L : Ledger),
        Table.create _ 0 = .ok (.ok t) ∧ Accounts { table := t } {} m L ∧
          L.issued = ↑[Handle.stack ⟨0⟩, .space ⟨0⟩, .stack ⟨1⟩] ∧ L.granted = { ⟨7⟩ } ∧
          L.released = { .stack ⟨1⟩ } ∧ m.tasks = [] :=
    ⟨_, _, _, rfl,
      .event (e := .start (.boot "" []) 0) trivial (considerate_of_none rfl rfl).disciplined rfl <|
      .event (e := .answer ⟨none, .allocating 0 (.root "" [])⟩ (some ⟨0⟩) 0) List.mem_cons_self
        (considerate_of_none rfl rfl).disciplined rfl <|
      .event (e := .answer ⟨none, .mapping 0 "" []⟩ (some ⟨0⟩) 0) List.mem_cons_self
        (considerate_of_none rfl rfl).disciplined rfl <|
      .event (e := .start (.dispatch 0) 0) trivial (considerate_of_none rfl rfl).disciplined rfl <|
      .grant (grants_of_tasks (i := 0) [⟨7⟩] rfl rfl rfl rfl) <|
      .event (e := .start (.fork 0) 0) trivial
        (considerate_of_works (e := .start (.fork 0) 0) (i := 0) rfl rfl nofun rfl
          ⟨rfl, rfl, rfl⟩).disciplined rfl <|
      .event (e := .answer ⟨some 1, .allocating 1 (.child { rootPlan with files := [⟨7⟩] })⟩
        (some ⟨1⟩) 0) List.mem_cons_self (considerate_of_none rfl rfl).disciplined rfl <|
      .event (e := .answer ⟨some 1, .copying 1 { rootPlan with files := [⟨7⟩] } ⟨0⟩⟩ none 0)
        List.mem_cons_self (considerate_of_none rfl rfl).disciplined rfl <|
      .event (e := .answer ⟨some 1, .undoing ⟨1⟩⟩ () 0) List.mem_cons_self
        (considerate_of_none rfl rfl).disciplined rfl <|
      .refl, rfl, rfl, rfl, rfl⟩
  refine ⟨t, m, L, hcreate, hrun, hgranted, hreleased, settled_of_accounts hcreate hrun ?_ ?_⟩
  · rw [hissued]
    decide
  · simp [htasks]

end Machine

end FeedbackQueue
