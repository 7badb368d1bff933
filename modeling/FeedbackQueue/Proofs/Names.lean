import FeedbackQueue.Naming
import FeedbackQueue.Proofs.Clipping
import FeedbackQueue.Proofs.Holdings
import FeedbackQueue.Proofs.Scans

/-!
# Names

The name of a process is the longest part of the name that was asked for which has no more than
`nameLimit` bytes and splits no character.  Setting a name never faults, and whatever names a record
has had before make no difference.  Names come from the boot of the root process, and pass from a
process to its children, so all names in a table are that short.

## Main definitions

* `Process.Takes` : a record has taken a name.
* `Machine.Terse` : the names in records and blueprints are short.

## Main statements

* `boundary_eq_ok` : the search for the cut ends.
* `Process.setName_eq_ok` : setting a name is `Process.rename`.
* `names_truncated` : names in records, and in the tables that a run comes to.
-/

namespace FeedbackQueue

/-! ### The cut -/

section Cut

variable {text s rest : String} {k n : Nat}

/-- What is at the start of a text ends at a place between characters. -/
theorem isValid_of_leads (h : s.toList <+: text.toList) :
    String.Pos.Raw.IsValid text ⟨s.utf8ByteSize⟩ := by
  obtain ⟨rest, hrest⟩ := h
  refine String.Pos.Raw.isValid_iff_exists_append.2 ⟨s, String.ofList rest, ?_, rfl⟩
  exact String.toList_injective (by rw [String.toList_append, String.toList_ofList, hrest])

/-- **The search ends**, at the last place between characters. -/
theorem boundary_eq_ok (text : String) (n : Nat) :
    ∃ k, boundary text n = .ok k ∧ k ≤ n ∧ String.Pos.Raw.IsValid text ⟨k⟩ ∧
      ∀ j, j ≤ n → String.Pos.Raw.IsValid text ⟨j⟩ → j ≤ k := by
  induction n with
  | zero =>
    have hzero : String.Pos.Raw.IsValid text ⟨0⟩ := String.Pos.Raw.isValid_zero
    refine ⟨0, ?_, Nat.le_refl 0, hzero, fun j hj _ => hj⟩
    rw [boundary, if_pos (String.Pos.Raw.isValid_eq_true_iff.2 hzero)]
  | succ n ih =>
    rw [boundary]
    by_cases hvalid : String.Pos.Raw.IsValid text ⟨n + 1⟩
    · rw [if_pos (String.Pos.Raw.isValid_eq_true_iff.2 hvalid)]
      exact ⟨n + 1, rfl, Nat.le_refl _, hvalid, fun j hj _ => hj⟩
    · rw [if_neg (mt String.Pos.Raw.isValid_eq_true_iff.1 hvalid)]
      obtain ⟨k, e, hk, hkvalid, hlast⟩ := ih
      refine ⟨k, e, Nat.le_succ_of_le hk, hkvalid, fun j hj hjvalid => ?_⟩
      refine hlast j (Nat.le_of_lt_succ (Nat.lt_of_le_of_ne hj ?_)) hjvalid
      rintro rfl
      exact hvalid hjvalid

/-- A text that is cut between two characters. -/
theorem cutAt_eq_ok (h : String.Pos.Raw.IsValid text ⟨k⟩) :
    ∃ s, cutAt text k = .ok s ∧ s.toList <+: text.toList ∧ s.utf8ByteSize = k ∧
      s.toByteArray = text.toByteArray.extract 0 k := by
  obtain ⟨s, rest, rfl, hk⟩ := String.Pos.Raw.isValid_iff_exists_append.1 h
  obtain rfl : k = s.utf8ByteSize := congrArg String.Pos.Raw.byteIdx hk
  have hbytes : s.toByteArray = (s ++ rest).toByteArray.extract 0 s.utf8ByteSize := by
    rw [String.toByteArray_append, ByteArray.extract_append_eq_left String.size_toByteArray.symm]
  refine ⟨s, ?_, ?_, rfl, hbytes⟩
  · rw [cutAt, dif_pos h]
    exact congrArg Except.ok (String.toByteArray_inj.1 hbytes.symm)
  · rw [String.toList_append]
    exact List.prefix_append _ _

/-- Of two texts at the start of a third the one with fewer bytes is at the start of the other. -/
theorem leads_of_le (hs : s.toList <+: text.toList) (hrest : rest.toList <+: text.toList)
    (hle : s.utf8ByteSize ≤ rest.utf8ByteSize) : s.toList <+: rest.toList := by
  rcases List.prefix_or_prefix_of_prefix hs hrest with h | ⟨more, hmore⟩
  · exact h
  · -- the longer text has no more bytes, so nothing follows
    have happend : s = rest ++ String.ofList more :=
      String.toList_injective (by rw [String.toList_append, String.toList_ofList, hmore])
    rw [happend, String.utf8ByteSize_append] at hle
    have hnothing : String.ofList more = "" :=
      String.utf8ByteSize_eq_zero_iff.1 (Nat.le_zero.1 (Nat.le_of_add_le_add_left hle))
    rw [happend, hnothing, String.append_empty]

end Cut

namespace Process

variable {p q : Process} {name : String}

theorem rename_name : (p.rename name).name = clipName name := rfl

theorem truncates_clipName (name : String) : Truncates nameLimit (clipName name) name :=
  truncates_clip nameLimit name

/-- **Setting a name** cuts it off where `rename` does, and does not fault. -/
theorem setName_eq_ok (p : Process) (name : String) :
    ∃ k, boundary name (min name.utf8ByteSize nameLimit) = .ok k ∧
      (clipName name).toByteArray = name.toByteArray.extract 0 k ∧
      p.setName name = .ok (p.rename name) := by
  obtain ⟨k, e, hk, hvalid, hlast⟩ := boundary_eq_ok name (min name.utf8ByteSize nameLimit)
  obtain ⟨s, hcut, hleads, hsize, hbytes⟩ := cutAt_eq_ok hvalid
  have hs : Truncates nameLimit s name := by
    refine ⟨hleads, ?_, fun other hother hfits => ?_⟩
    · rw [hsize]
      exact Nat.le_trans hk (Nat.min_le_right _ _)
    · have hother' := isValid_of_leads hother
      refine leads_of_le hother hleads ?_
      rw [hsize]
      exact hlast _ (Nat.le_min.2 ⟨hother'.le_utf8ByteSize, hfits⟩) hother'
  obtain rfl := hs.unique (truncates_clipName name)
  refine ⟨k, e, hbytes, ?_⟩
  rw [setName, e]
  change (cutAt name k >>= _) = _
  rw [hcut]
  rfl

/-- A record has taken a name: the longest part of it that is kept, and nothing else has changed.
To take the name that it has then makes no difference. -/
structure Takes (p : Process) (name : String) (q : Process) : Prop where
  /-- Nothing but the name has changed. -/
  eq : q = { p with name := q.name }
  /-- The name is the longest part in whole characters. -/
  truncates : Truncates nameLimit q.name name
  /-- Its bytes are those of a text. -/
  valid : q.name.toByteArray.IsValidUTF8
  /-- It can be set again. -/
  again : q.setName q.name = .ok q

theorem takes_rename (p : Process) (name : String) : p.Takes name (p.rename name) where
  eq := rfl
  truncates := truncates_clipName name
  valid := String.isValidUTF8 _
  again := by
    obtain ⟨-, -, -, e⟩ := setName_eq_ok (p.rename name) (clipName name)
    have hagain : clipName (clipName name) = clipName name := by
      have hfits := (truncates_clipName name).fits
      rw [clipName, clip_eq_self (by rwa [String.ofList_toList]), String.ofList_toList]
    rw [rename_name, e, rename, hagain, rename]

/-- Names that have been set before change the name only. -/
theorem foldlM_setName_eq_ok (p : Process) (names : List String) :
    ∃ name, names.foldlM setName p = .ok { p with name } := by
  induction names generalizing p with
  | nil => exact ⟨p.name, rfl⟩
  | cons name names ih =>
    obtain ⟨-, -, -, e⟩ := p.setName_eq_ok name
    obtain ⟨name', e'⟩ := ih (p.rename name)
    exact ⟨name', by rw [List.foldlM_cons, e]; exact e'⟩

end Process

/-! ### Acts -/

theorem Process.lasting_name : Lasting name := ⟨by intros; rfl⟩

namespace View

variable {v w : View} {i : Slot}

/-- The names in the records. -/
def nameOf (v : View) : Slot → String := fun i => (v.record i).name

theorem nameOf_of_update {p : Process} (h : w.record = Function.update v.record i p) :
    w.nameOf = Function.update v.nameOf i p.name :=
  parts_of_update (g := Process.name) h

/-- A change of one record that leaves its name alone. -/
theorem nameOf_eq_of_update {p : Process} (h : w.record = Function.update v.record i p)
    (hp : p.name = (v.record i).name) : w.nameOf = v.nameOf :=
  funext fun _ => part_of_update (g := Process.name) h hp

end View

namespace Act

variable {P : Params} {v : View} {a : Act} {i : Slot}

/-- What an act does to the names: a slot that is given back loses its name, and the root process
and children get theirs. -/
def christen (names : Slot → String) : Act → Slot → String
  | discard i | abandon i | reap _ _ i => Function.update names i ""
  | crown i name _ => Function.update names i (clipName name)
  | launch i plan _ _ _ => Function.update names i plan.name
  | _ => names

/-- **Acts do nothing else to the names.** -/
theorem apply_nameOf : (a.apply P v).nameOf = a.christen v.nameOf := by
  have hpassing : a.isPassing = true → (a.apply P v).nameOf = v.nameOf := fun ha =>
    funext fun _ => lasting_apply Process.lasting_name ha
  cases a with
  | giveStack | surrender => exact View.nameOf_eq_of_update (View.revise_record ..) rfl
  | discard => exact View.nameOf_of_update View.discard_record
  | abandon => exact View.nameOf_of_update View.abandon_record
  | crown => exact View.nameOf_of_update View.crown_record
  | launch => exact View.nameOf_of_update View.launch_record
  | reap => exact View.nameOf_of_update View.reap_record
  | _ => exact hpassing rfl

end Act

/-! ### Blueprints -/

namespace Event

variable {e : Event} {acts : List Act} {p : Progress} {plan : Blueprint} {now : Nat} {cpu : Cpu}

theorem plan_of_exit {last : Resumption} (h : Script.exit cpu last now acts p) :
    p.plan? = none := by
  obtain ⟨i, files, rest, -, h⟩ := h
  cases files with
  | cons =>
    obtain ⟨-, rfl⟩ := h
    rfl
  | nil =>
    obtain ⟨j, -, rfl⟩ := h
    rfl

theorem plan_of_waitRound (h : Script.waitRound cpu now acts p) : p.plan? = none := by
  rcases h with ⟨-, rfl⟩ | ⟨me, i, remains, rest, -, h⟩ | ⟨me, -, rfl⟩
  · rfl
  · exact (course_release h).2.1.1
  · rfl

theorem plan_of_sleepRound {first ticks : Nat} (h : Script.sleepRound cpu first ticks now acts p) :
    p.plan? = none := by
  rcases h with ⟨result, -, rfl⟩ | ⟨i, -, rfl⟩ <;> rfl

/-- Blueprints are drawn up by forks. -/
theorem plan_or_fork (h : e.script acts p) (hplan : p.plan? = some plan) :
    e.plan? = some plan ∨ ∃ cpu clock, e = .start (.fork cpu) clock := by
  rcases (course_of_script h).plan_or_cpu hplan with hold | ⟨cpu, -, hcpu, -⟩
  · exact .inl hold
  -- other events that let a process go on end without a blueprint
  refine .inr (Classical.byContradiction fun hfork => ?_)
  have hnone : p.plan? = none := by
    cases e with
    | start request clock =>
      cases request with
      | fork cpu => exact absurd ⟨cpu, clock, rfl⟩ hfork
      | exit | terminate => exact plan_of_exit h
      | wait => exact plan_of_waitRound h
      | sleepFor => exact plan_of_sleepRound h
      | poll =>
        rcases h with ⟨result, -, -, rfl⟩ | ⟨me, i, remains, rest, -, h⟩
        · rfl
        · exact (course_release h).2.1.1
      | sleep | yield =>
        obtain ⟨i, -, rfl⟩ := h
        rfl
      | setUid | setGid => rcases h with ⟨why, -, rfl⟩ | ⟨i, -, rfl⟩ <;> rfl
      | _ => cases hcpu
    | answer task reply clock =>
      obtain ⟨caller, s⟩ := task
      cases s with
      | switching _ resumption =>
        cases resumption with
        | wait => exact plan_of_waitRound h
        | sleepFor => exact plan_of_sleepRound h
        | _ => cases hcpu
      | _ => cases hcpu
  cases hnone.symm.trans hplan

end Event

/-- The blueprint of a fork is that of the process on its CPU. -/
theorem Table.plan_of_fork {P : Params} {t t' : Table P} {cpu : Cpu} {clock : Clock} {p : Progress}
    {plan : Blueprint} (e : (Request.fork cpu).start clock t = .ok (p, t'))
    (hplan : p.plan? = some plan) : t.blueprint cpu = .ok plan := by
  obtain ⟨plan', hblueprint, e⟩ := bind_eq_ok.1 e
  obtain ⟨found, -, e⟩ := bind_eq_ok.1 e
  cases found with
  | none =>
    cases e
    cases hplan
  | some found =>
    cases e
    cases hplan
    exact hblueprint

/-! ### Runs -/

namespace Machine

variable {P : Params} {m m₁ : Machine P} {e : Event} {p : Progress} {steps : List (Step P)}

/-- The names in records, and in the blueprints of requests that wait, are short. -/
structure Terse (m : Machine P) : Prop where
  records : ∀ i, (m.table.view.nameOf i).utf8ByteSize ≤ nameLimit
  plans : ∀ task ∈ m.tasks, ∀ plan, task.suspension.plan? = some plan →
    plan.name.utf8ByteSize ≤ nameLimit

/-- An act by short names keeps names short. -/
theorem terse_christen {a : Act} {names : Slot → String} {i : Slot}
    (h : ∀ i, (names i).utf8ByteSize ≤ nameLimit)
    (hplan : ∀ i plan space files cwd, a = .launch i plan space files cwd →
      plan.name.utf8ByteSize ≤ nameLimit) : (a.christen names i).utf8ByteSize ≤ nameLimit := by
  have hupdate : ∀ (j : Slot) (name : String), name.utf8ByteSize ≤ nameLimit →
      (Function.update names j name i).utf8ByteSize ≤ nameLimit := by
    intro j name hname
    rw [Function.update_apply]
    split
    · exact hname
    · exact h i
  cases a with
  | discard j | abandon j | reap _ _ j => exact hupdate j "" (Nat.zero_le _)
  | crown j name space => exact hupdate j _ (Process.truncates_clipName name).fits
  | launch j plan space files cwd => exact hupdate j _ (hplan _ _ _ _ _ rfl)
  | _ => exact h i

theorem Terse.of_perform_eq_ok (h : m.Terse) (hm : m.table.Orderly) (hcan : m.CanHappen e)
    (hperform : m.perform e = .ok (p, m₁)) : m₁.Terse := by
  obtain ⟨-, hafter, acts, hfollows, hscript⟩ := Machine.of_perform_eq_ok hm hperform
  have hold : ∀ plan, e.plan? = some plan → plan.name.utf8ByteSize ≤ nameLimit := by
    intro plan hplan
    cases e with
    | start => cases hplan
    | answer task reply clock => exact h.plans task hcan plan hplan
  constructor
  · refine hfollows.preserves (I := fun w => ∀ i, (w.nameOf i).utf8ByteSize ≤ nameLimit)
      h.records fun v a ha _ hv i => ?_
    rw [Act.apply_nameOf]
    refine terse_christen hv fun j plan space files cwd hlaunch => ?_
    exact hold plan ((Event.course_of_script hscript).plan_of_launch (hlaunch ▸ ha))
  · rw [hafter]
    intro task htask plan hplan
    rcases mem_tasks_after htask with htask | ⟨s, rfl, rfl⟩
    · exact h.plans task (mem_of_mem_others htask) plan hplan
    · rcases Event.plan_or_fork hscript hplan with hcarried | ⟨cpu, clock, rfl⟩
      · exact hold plan hcarried
      · obtain ⟨⟨p', t⟩, hstretch, hresult⟩ := bind_eq_ok.1 hperform
        cases hresult
        have hblueprint := Table.plan_of_fork hstretch hplan
        have hname := (Table.yields_blueprint hm.sound).of_ok hblueprint |>.2.2.2.2.1
        rw [hname]
        exact h.records plan.parent

theorem Terse.of_history (h : m.Terse) (hm : m.table.Orderly) (hrun : m.History steps m₁) :
    m₁.Terse := by
  induction hrun with
  | nil => exact h
  | event hrun hcan hperform ih => exact ih.of_perform_eq_ok (hrun.orderly hm) hcan hperform
  | grant hrun hgrants ih =>
    obtain ⟨-, files', cwd, hview, -⟩ := hgrants.exists_view (hrun.orderly hm)
    refine ⟨fun j => ?_, ih.plans⟩
    rw [hview, View.nameOf_eq_of_update (View.revise_record _ _ (Process.equip files' cwd)) rfl]
    exact ih.records j

theorem terse_of_create {t : Table P} {now : Nat} (hcreate : Table.create P now = .ok (.ok t)) :
    Terse { table := t } := by
  refine ⟨?_, nofun⟩
  rw [(Table.orderly_of_create hcreate).2]
  exact fun _ => Nat.zero_le _

end Machine

/-- **Names are cut off where they get too long.**  Whatever names a record has had, it takes the
longest part of the next one that has at most `nameLimit` bytes and splits no character: the search
for the cut ends, and the bytes up to the cut are the name.  In every table that a run comes to, all
names are that short. -/
theorem names_truncated :
    (∀ (p : Process) (earlier : List String) (name : String), ∃ q k r,
      earlier.foldlM Process.setName p = .ok q ∧
      boundary name (min name.utf8ByteSize nameLimit) = .ok k ∧ q.setName name = .ok r ∧
      r.name.toByteArray = name.toByteArray.extract 0 k ∧ q.Takes name r ∧
      p.setName name = .ok r) ∧
    ∀ (P : Params) (t : Table P) (now : Nat) (steps : List (Machine.Step P)) (m : Machine P),
      Table.create P now = .ok (.ok t) → Machine.History { table := t } steps m →
      ∀ i, (m.table.record i).name.utf8ByteSize ≤ nameLimit := by
  constructor
  · intro p earlier name
    obtain ⟨last, hearlier⟩ := p.foldlM_setName_eq_ok earlier
    obtain ⟨k, hk, hbytes, hset⟩ := Process.setName_eq_ok { p with name := last } name
    obtain ⟨-, -, -, hfirst⟩ := p.setName_eq_ok name
    exact ⟨_, k, _, hearlier, hk, hset, hbytes, Process.takes_rename _ name, hfirst⟩
  · intro P t now steps m hcreate hrun
    exact ((Machine.terse_of_create hcreate).of_history
      (Table.orderly_of_create hcreate).1 hrun).records

/-- The third byte of a character is beyond the limit, so the name ends before it; and so does that
of a root process. -/
theorem names_truncated_of_euro : ∃ q r, ["ééééééééé", "a"].foldlM Process.setName {} = .ok q ∧
    q.setName "aaaaaaaaaaaaaa€b" = .ok r ∧ r.name = "aaaaaaaaaaaaaa" ∧
    ∃ (t : Table ⟨1, 0, 1, 1, 1, true⟩) (steps : List (Machine.Step _)) (m : Machine _),
      Table.create _ 0 = .ok (.ok t) ∧ Machine.History { table := t } steps m ∧
      (m.table.record 0).name = "aaaaaaaaaaaaaa" ∧
      ∀ i, (m.table.record i).name.utf8ByteSize ≤ nameLimit := by
  obtain ⟨hsets, hruns⟩ := names_truncated
  obtain ⟨q, k, r, hearlier, -, hset, -, htakes, -⟩ :=
    hsets {} ["ééééééééé", "a"] "aaaaaaaaaaaaaa€b"
  have hclip : clipName "aaaaaaaaaaaaaa€b" = "aaaaaaaaaaaaaa" := by decide
  obtain ⟨t, steps, m, hcreate, hrun, hname⟩ : ∃ (t : Table ⟨1, 0, 1, 1, 1, true⟩)
      (steps : List (Machine.Step _)) (m : Machine _), Table.create _ 0 = .ok (.ok t) ∧
      Machine.History { table := t } steps m ∧
      (m.table.record 0).name = clipName "aaaaaaaaaaaaaa€b" :=
    ⟨_, _, _, rfl,
      Machine.History.nil.event (e := .start (.boot "aaaaaaaaaaaaaa€b" []) 0) trivial rfl
        |>.event (e := .answer ⟨none, .allocating 0 (.root "aaaaaaaaaaaaaa€b" [])⟩ (some ⟨0⟩) 0)
          List.mem_cons_self rfl
        |>.event (e := .answer ⟨none, .mapping 0 "aaaaaaaaaaaaaa€b" []⟩ (some ⟨0⟩) 0)
          List.mem_cons_self rfl, rfl⟩
  refine ⟨q, r, hearlier, hset, ?_, t, steps, m, hcreate, hrun, hname.trans hclip,
    hruns _ t 0 steps m hcreate hrun⟩
  exact (htakes.truncates.unique (Process.truncates_clipName _)).trans hclip

end FeedbackQueue
