import FeedbackQueue.Proofs.Accounts
import FeedbackQueue.Proofs.Alone

/-!
# Exits

An exit that is left alone closes the files of its process, and then changes the whole family at
once: it wakes whoever waits for a child in the place of the parent, gives the children to the root
process, which it wakes if one of them has exited, and leaves the process itself as a zombie.

The loops over the chains are gone from this account.  All wake-ups of an exit come to one list of
sleepers, which go to the ends of their levels in its order.

## Main definitions

* `View.rouse` : the view after the sleepers of a list have been woken.
* `View.woken` : whom an exit wakes, in order.
* `View.exit` : the view after an exit.
* `Table.Exits` : what an exit that is left alone does.

## Main statements

* `View.Sound.retire_eq_exit` : a retirement in one formula.
* `Machine.exits_of_history` : exits in disciplined runs.
-/

namespace FeedbackQueue

namespace View

variable {P : Params} {v w : View} {i j parent root : Slot} {c : Channel} {xs ys : List Slot}
  {now : Nat}

/-! ### Sleepers -/

/-- Who sleeps on a channel, in chain order. -/
def sleepers (c : Channel) (v : View) : List Slot :=
  (v.queue (.stage .sleeping)).filter fun k => (v.record k).sleepsOn c

/-- The view after the slots of a list have been woken in turn. -/
def rouse (xs : List Slot) (v : View) : View :=
  { v with
    record := fun k => if k ∈ xs then (v.record k).awaken else v.record k
    queue := fun
      | .ready level => v.queue (.ready level) ++ xs.filter fun k => (v.record k).priority == level
      | .stage .sleeping => (v.queue (.stage .sleeping)).filter fun k => k ∉ xs
      | place => v.queue place }

theorem Sound.mem_sleepers_iff (h : v.Sound P) :
    j ∈ v.sleepers c ↔ (v.record j).sleepsOn c = true := by
  obtain ⟨t, ht, rfl⟩ := h
  rw [sleepers, List.mem_filter, and_iff_right_iff_imp]
  exact fun hj => ht.mem_sleeping_iff.2 (Process.sleepsOn_iff.1 hj).1

/-- To wake a channel is to wake its sleepers. -/
theorem Sound.wake_eq_rouse (h : v.Sound P) : v.wake c = v.rouse (v.sleepers c) := by
  have hmem := fun k => h.mem_sleepers_iff (c := c) (j := k)
  refine View.ext (funext fun k => ?_) (funext fun place => ?_) rfl rfl rfl rfl
  · exact if_congr (hmem k).symm rfl rfl
  · rcases place with s | level
    · cases s
      case sleeping =>
        refine List.filter_congr fun k _ => ?_
        simp only [hmem]
        cases (v.record k).sleepsOn c <;> rfl
      all_goals rfl
    · simp only [View.wake, rouse, sleepers, List.filter_filter]
      congr 1
      exact List.filter_congr fun k _ => Bool.and_comm _ _

theorem rouse_rouse : (v.rouse xs).rouse ys = v.rouse (xs ++ ys) := by
  have hpriority : ∀ k, ((v.rouse xs).record k).priority = (v.record k).priority := by
    intro k
    simp only [rouse]
    split <;> rfl
  refine View.ext (funext fun k => ?_) (funext fun place => ?_) rfl rfl rfl rfl
  · by_cases hx : k ∈ xs <;> by_cases hy : k ∈ ys <;> simp [rouse, hx, hy, Process.awaken]
  · rcases place with s | level
    · cases s
      case sleeping => simp [rouse, List.filter_filter, Bool.and_comm]
      all_goals rfl
    · have hready : ((v.rouse xs).rouse ys).queue (.ready level) =
          (v.rouse xs).queue (.ready level) ++
            ys.filter fun k => ((v.rouse xs).record k).priority == level := rfl
      rw [hready]
      simp only [hpriority]
      simp [rouse]

theorem sleepers_rouse : (v.rouse xs).sleepers c = (v.sleepers c).filter (· ∉ xs) := by
  have hqueue : (v.rouse xs).queue (.stage .sleeping) =
      (v.queue (.stage .sleeping)).filter (· ∉ xs) := rfl
  rw [sleepers, hqueue, List.filter_filter, sleepers, List.filter_filter]
  refine List.filter_congr fun k _ => ?_
  by_cases hk : k ∈ xs
  · simp [hk]
  · simp [hk, rouse]

/-- Where the woken go depends on their levels only. -/
theorem rouse_queue_of_priority {w : View}
    (hqueue : w.queue = v.queue) (hpriority : ∀ k, (w.record k).priority = (v.record k).priority) :
    (w.rouse xs).queue = (v.rouse xs).queue := by
  funext place
  rcases place with s | level
  · cases s <;> simp [rouse, hqueue]
  · simp [rouse, hqueue, hpriority]

/-! ### The family -/

/-- Whom the exit of the process in slot `i` wakes: those who sleep on its parent and, if a child of
it has exited, those who sleep on the root process. -/
def woken (i parent root : Slot) (v : View) : List Slot :=
  v.sleepers (.process (v.record parent).pid) ++
    if (v.queue (.stage .zombie)).any fun k => (v.record k).parent = some i then
      (v.sleepers (.process (v.record root).pid)).filter
        (· ∉ v.sleepers (.process (v.record parent).pid))
    else []

/-- The view after the exit of the process in slot `i`, whose last stint has ended at `now`. -/
def exit (i parent root : Slot) (now : Nat) (v : View) : View :=
  { v with
    record := fun k =>
      if k = i then
        { v.record i with
          stage := .zombie, size := 0, files := [], cwd := none
          cpuTicks := (v.record i).cpuTicks + (now - (v.record i).dispatchedAt) }
      else
        let p := if k ∈ v.woken i parent root then (v.record k).awaken else v.record k
        { p with parent := if p.parent = some i then some root else p.parent }
    queue := fun
      | .ready level => v.queue (.ready level) ++
          (v.woken i parent root).filter fun k => (v.record k).priority == level
      | .stage .sleeping => (v.queue (.stage .sleeping)).filter (· ∉ v.woken i parent root)
      | .stage .running => (v.queue (.stage .running)).erase i
      | .stage .zombie => v.queue (.stage .zombie) ++ [i]
      | place => v.queue place }

/-- All wake-ups of an exit in one. -/
theorem Sound.adopt_eq (h : v.Sound P) (hparent : (v.record i).parent = some parent)
    (hroot : v.root = some root) :
    (v.wakeParent (v.record i)).adopt P i =
      (v.rouse (v.woken i parent root)).reparent i
        (Table.searched.flatMap ((v.wakeParent (v.record i)).members P)) := by
  have hfirst : v.wakeParent (v.record i) =
      v.rouse (v.sleepers (.process (v.record parent).pid)) := by
    rw [View.wakeParent, hparent]
    exact h.wake_eq_rouse
  have hsound := h.wakeParent (v.record i)
  have hcalm := v.calm_wakeParent (p := v.record i)
  have hany : ((v.wakeParent (v.record i)).queue (.stage .zombie)).any
        (fun k => ((v.wakeParent (v.record i)).record k).parent = some i) =
      (v.queue (.stage .zombie)).any fun k => (v.record k).parent = some i := by
    have hqueue : (v.wakeParent (v.record i)).queue (.stage .zombie) =
        v.queue (.stage .zombie) := by
      rw [hfirst]
      rfl
    rw [hqueue]
    simp only [(hcalm.2 _).parent]
  generalize hxs : Table.searched.flatMap ((v.wakeParent (v.record i)).members P) = xs
  unfold adopt
  rw [hcalm.1, hroot]
  simp only [hany, hxs, woken, (hcalm.2 root).pid]
  split
  · rw [← reparent_wake, hsound.wake_eq_rouse, hfirst, sleepers_rouse, rouse_rouse]
  · rw [hfirst, List.append_nil]

/-- To take the files of a slot changes nothing else. -/
theorem surrender_record_eq {k : Slot} :
    ∃ files cwd, (v.surrender i).record k = { v.record k with files, cwd } := by
  simp only [surrender, revise_record, Function.update_apply]
  split
  · subst k
    exact ⟨_, _, rfl⟩
  · exact ⟨_, _, rfl⟩

theorem surrender_sleepers : (v.surrender i).sleepers c = v.sleepers c := by
  refine List.filter_congr fun k _ => ?_
  obtain ⟨_, _, e⟩ := surrender_record_eq (v := v) (i := i) (k := k)
  rw [e]
  rfl

theorem surrender_woken : (v.surrender i).woken i parent root = v.woken i parent root := by
  have hrecord : ∀ k, ((v.surrender i).record k).pid = (v.record k).pid ∧
      ((v.surrender i).record k).parent = (v.record k).parent := by
    intro k
    obtain ⟨_, _, e⟩ := surrender_record_eq (v := v) (i := i) (k := k)
    rw [e]
    exact ⟨rfl, rfl⟩
  unfold woken
  simp only [surrender_sleepers, hrecord]
  rfl

/-- Who is running is not woken. -/
theorem Sound.not_mem_woken (h : v.Sound P) (hi : (v.record i).stage = .running) :
    i ∉ v.woken i parent root := by
  have hsleepers : ∀ c, i ∉ v.sleepers c := by
    intro c hc
    cases hi.symm.trans (Process.sleepsOn_iff.1 (h.mem_sleepers_iff.1 hc)).1
  unfold woken
  split <;> simp [hsleepers]

/-- Everybody else is, before the process leaves its CPU, as they are in the end. -/
theorem reparent_rouse_record {xs : List Slot} {k : Slot} (hroot : v.root = some root)
    (hxs : (v.record k).parent = some i → k ∈ xs) (hk : k ≠ i) :
    (((v.surrender i).rouse (v.woken i parent root)).reparent i xs).record k =
      (v.exit i parent root now).record k := by
  have hrecord : (v.surrender i).record k = v.record k := Function.update_of_ne hk ..
  have hroot' : (v.surrender i).root = some root := hroot
  by_cases hchild : (v.record k).parent = some i
  · by_cases hwoken : k ∈ v.woken i parent root <;>
      simp [reparent, rouse, exit, hk, hrecord, hwoken, hchild, hxs hchild, hroot', Process.awaken]
  · by_cases hwoken : k ∈ v.woken i parent root <;>
      simp [reparent, rouse, exit, hk, hrecord, hwoken, hchild, Process.awaken]

/-- **A retirement in one formula**, where children are in use and nobody is its own parent. -/
theorem Sound.retire_eq_exit (h : v.Sound P) (hi : i < P.capacity)
    (hrunning : (v.record i).stage = .running) (hparent : (v.record i).parent = some parent)
    (hroot : v.root = some root) (hself : parent ≠ i)
    (hchildren : ∀ k, (v.record k).parent = some i → (v.record k).stage ≠ .unused) :
    (v.surrender i).retire P i now = v.exit i parent root now := by
  have hw : (v.surrender i).Sound P := h.surrender hi
  have hwrecord : (v.surrender i).record i = { v.record i with files := [], cwd := none } :=
    Function.update_self ..
  have hwroot : (v.surrender i).root = some root := hroot
  have hwparent : ((v.surrender i).record i).parent = some parent := by rw [hwrecord, hparent]
  have hadopt := hw.adopt_eq hwparent hwroot
  have hmem := fun k => (hw.wakeParent ((v.surrender i).record i)).mem_searched_iff (j := k)
  rw [surrender_woken] at hadopt
  unfold retire
  rw [hadopt]
  generalize Table.searched.flatMap _ = xs at hmem
  generalize hX : ((v.surrender i).rouse (v.woken i parent root)).reparent i xs = X
  -- the process itself is left alone so far, and everybody else is as in the end
  have hmine : X.record i = { v.record i with files := [], cwd := none } := by
    have hwoken : i ∉ v.woken i parent root := h.not_mem_woken hrunning
    rw [← hX]
    simp [reparent, rouse, hwoken, hwrecord, hparent, hself]
  have hothers : ∀ k, k ≠ i → X.record k = (v.exit i parent root now).record k := by
    intro k hk
    have hrecord : (v.surrender i).record k = v.record k := Function.update_of_ne hk ..
    rw [← hX]
    refine reparent_rouse_record hroot (fun hchild => ?_) hk
    have hphase := ((v.surrender i).calm_wakeParent (p := (v.surrender i).record i)).2 k |>.phase
    rw [hmem, ne_eq, ← Stage.phase_eq_free, hphase, hrecord, Stage.phase_eq_free]
    exact hchildren k hchild
  have hhome : (X.record i).home = .stage .running := by
    rw [hmine]
    exact (Process.home_eq_stage_iff (by simp)).2 hrunning
  have hqueue : X.queue = (v.rouse (v.woken i parent root)).queue := by
    rw [← hX]
    refine rouse_queue_of_priority (w := v.surrender i) rfl fun k => ?_
    obtain ⟨_, _, e⟩ := surrender_record_eq (v := v) (i := i) (k := k)
    rw [e]
  refine View.ext (funext fun k => ?_) (funext fun place => ?_) ?_ ?_ ?_ ?_
  · by_cases hk : k = i
    · subst k
      simp [depart, hmine, exit, Process.bill, Process.enter]
    · simp [depart, Function.update_of_ne hk, hothers k hk]
  · have hzombie : ((X.record i).enter .zombie).home = .stage .zombie := rfl
    simp only [depart, revise_queue, shift, append, drop, hhome, hqueue, revise_record,
      Function.update_self, hzombie]
    rcases place with s | level
    · cases s <;> simp [rouse, exit]
    · simp [rouse, exit]
  all_goals
    rw [← hX]
    rfl

/-- The root process is everybody's ancestor, so nobody else is its own parent. -/
theorem Tree.parent_ne (h : v.Tree) (hi : v.Started i) (hroot : v.root = some root) (hne : root ≠ i)
    (hparent : v.Child i parent) : parent ≠ i := by
  rintro rfl
  obtain ⟨r, hr, hlineage⟩ := h.lineage _ hi
  cases hroot.symm.trans hr
  have hloop : ∀ j, Relation.ReflTransGen v.Child parent j → j = parent := by
    intro j hj
    induction hj with
    | refl => rfl
    | tail _ hstep ih =>
      subst ih
      exact Option.some.inj (hstep.symm.trans hparent)
  exact hne (hloop root hlineage)

/-- Nobody is left with the process that has exited as its parent. -/
theorem Tree.parent_exit_ne (h : v.Tree) (hi : v.Started i) (hroot : v.root = some root)
    (hne : root ≠ i) (hparent : v.Child i parent) (k : Slot) :
    ((v.exit i parent root now).record k).parent ≠ some i := by
  have hself := h.parent_ne hi hroot hne hparent
  have hheir : ∀ heir : Option Slot, (if heir = some i then some root else heir) ≠ some i := by
    intro heir
    split
    · exact fun heq => hne (Option.some.inj heq)
    · assumption
  by_cases hk : k = i
  · subst k
    simp [exit, show (v.record i).parent = some parent from hparent, hself]
  · simp only [exit, hk, if_false]
    exact hheir _

end View

/-- The reply that a file has been closed, at a reading of the clock. -/
def closed (c : FileHandle × Nat) : Reply := ⟨.close c.1, (), c.2⟩

/-- The reading of the clock when the last of some files has been closed, and before that `now`. -/
def lastClose (now : Nat) (closes : List (FileHandle × Nat)) : Nat :=
  (closes.map Prod.snd).getLastD now

namespace Table

variable {P : Params} {t : Table P} {cpu : Cpu} {i parent root : Slot} {now : Nat}
  {Q : List Reply → Ending P → Prop} {replies : List Reply}

/-- What an exit of the process in slot `i`, begun at `now` and left alone, does: it closes its
files in order, the working directory last, changes the table and switches away.  It faults if the
ticks of the process do not fit in a word. -/
inductive Exits (t : Table P) (cpu : Cpu) (i parent root : Slot) (now : Nat) :
    List Reply → Ending P → Prop
  | done {closes : List (FileHandle × Nat)} {cpu' : Cpu} {n : Nat} {t' : Table P} :
      closes.map Prod.fst = (t.record i).files ++ (t.record i).cwd.toList →
      t'.view = t.view.exit i parent root (lastClose now closes) →
      (∀ k, (t'.record k).parent ≠ some i) →
      Exits t cpu i parent root now (closes.map closed ++ [⟨.switch cpu, cpu', n⟩])
        (.ok (.done, t'))
  | overflow {closes : List (FileHandle × Nat)} {f : Fault} :
      closes.map Prod.fst = (t.record i).files ++ (t.record i).cwd.toList →
      word64 ≤ (t.record i).cpuTicks + (lastClose now closes - (t.record i).dispatchedAt) →
      Exits t cpu i parent root now (closes.map closed) (.error f)

/-- Files are closed one after the other, and then the process retires. -/
theorem alone_closeFiles {files : List FileHandle}
    (hQ : ∀ closes, closes.map Prod.fst = files →
      (∀ f, t.retire cpu (lastClose now closes) = .error f →
        Q (replies ++ closes.map closed) (.error f)) ∧
      ∀ t', t.retire cpu (lastClose now closes) = .ok t' → ∀ cpu' n,
        Q (replies ++ closes.map closed ++ [⟨.switch cpu, cpu', n⟩]) (.ok (.done, t'))) :
    Alone Q replies (t.closeFiles cpu .exit now files) := by
  induction files generalizing now replies with
  | cons file files ih =>
    refine .waiting fun _ clock => ih fun closes hcloses => ?_
    have hlast : lastClose now ((file, clock.now) :: closes) = lastClose clock.now closes := by
      rw [lastClose, List.map_cons, List.getLastD_cons, lastClose]
    have hrest := hQ ((file, clock.now) :: closes) (by simp [hcloses])
    rw [hlast] at hrest
    simpa [closed] using hrest
  | nil =>
    obtain ⟨hfault, hdone⟩ := hQ [] rfl
    simp only [List.map_nil, List.append_nil] at hfault hdone
    change Alone Q replies (t.retire cpu now >>= _)
    cases hretire : t.retire cpu now with
    | error f => exact .fault (hfault f hretire)
    | ok t' => exact .waiting fun cpu' clock => .returned (hdone t' hretire cpu' clock.now)

section Exit

variable (h : t.Orderly) (htree : t.view.Tree) (hi : t.occupant? cpu = some i)
  (hrunning : (t.record i).stage = .running) (hparent : (t.record i).parent = some parent)
  (hroot : t.root = some root) (hne : root ≠ i)
include h htree hi hrunning hparent hroot hne

/-- The retirement of a process whose files have been taken, in a family that is a tree. -/
theorem Orderly.yields_exit {t₁ : Table P} (h₁ : t₁.Orderly)
    (hview₁ : t₁.view = t.view.surrender i) :
    Yields ((t.record i).cpuTicks + (now - (t.record i).dispatchedAt) < word64) (t₁.retire cpu now)
      fun t' => t'.view = t.view.exit i parent root now := by
  have hmarker : t₁.occupant? cpu = some i := (congrFun (congrArg View.marker hview₁) cpu).trans hi
  have hroot₁ : t₁.root = t.root := congrArg View.root hview₁
  have hrecord₁ : t₁.record i = { t.record i with files := [], cwd := none } := by
    rw [← view_record, hview₁]
    exact Function.update_self ..
  refine h₁.yields_retire.mono (fun hfits => ⟨i, hmarker, ?_, fun j hj => ?_, fun r hr => ?_, ?_⟩)
    fun t' ⟨_, j, hj, _, hview⟩ => ?_
  · rw [hrecord₁]
    exact hrunning
  · rw [hrecord₁] at hj
    exact lt_of_stage_ne (htree.parent i j hj).started.1
  · rw [hroot₁] at hr
    exact lt_of_stage_ne (htree.root r hr).1.started.1
  · rw [hrecord₁]
    exact hfits
  · cases hmarker.symm.trans hj
    have hself := htree.parent_ne (View.alive_of_running hrunning).started hroot hne hparent
    rw [hview, hview₁]
    refine View.Sound.retire_eq_exit ⟨t, h.sound, rfl⟩ (lt_of_stage_eq hrunning) hrunning hparent
      hroot hself fun k hk hunused => ?_
    cases (htree.orphan k fun hs => hs.1 hunused).symm.trans hk

/-- **An exit that is left alone**, in a family that is a tree. -/
theorem Orderly.alone_exit (clock : Clock) :
    Alone (t.Exits cpu i parent root clock.now) [] ((Request.exit cpu).start clock t) := by
  have hnotroot : t.root ≠ some i := by
    rw [hroot]
    exact fun heq => hne (Option.some.inj heq)
  obtain ⟨⟨files, t₁⟩, e, h₁, j, hj, -, hfiles, hview₁⟩ :=
    h.yields_surrenderFiles.exists_ok ⟨i, hi, hnotroot⟩
  cases hi.symm.trans hj
  have hretire (n : Nat) : Yields _ (t₁.retire cpu n) fun t' => t'.view = _ :=
    h.yields_exit htree hi hrunning hparent hroot hne h₁ hview₁
  change Alone _ [] (t.surrenderFiles cpu >>= _)
  rw [e]
  refine alone_closeFiles fun closes hcloses => ⟨fun f hf => ?_, fun t' ht' cpu' n => ?_⟩
  · refine .overflow (hcloses.trans hfiles) (Nat.le_of_not_lt fun hfits => ?_)
    obtain ⟨t', ht', -⟩ := (hretire _).exists_ok hfits
    cases hf.symm.trans ht'
  · have hview' := (hretire _).of_ok ht'
    refine .done (hcloses.trans hfiles) hview' fun k => ?_
    rw [← view_record, hview']
    exact htree.parent_exit_ne (View.alive_of_running hrunning).started hroot hne hparent k

end Exit

end Table

namespace Machine

variable {P : Params} {m : Machine P} {steps : List (Step P)} {cpu : Cpu} {i parent root : Slot}
  {start now : Nat}

/-- On a clock that does not go back, and that fits in a word, an exit does not fault. -/
theorem done_of_exits {t : Table P} {replies : List Reply} {ending : Ending P}
    (hcreate : Table.create P start = .ok (.ok t)) (hrun : History { table := t } steps m)
    (hrunning : (m.table.record i).stage = .running)
    (hswitch : ∀ s ∈ steps, ∀ cpu left now, s.event ≠ .start (.switch cpu left) now)
    (hexits : m.table.Exits cpu i parent root now replies ending)
    (hclock : (start :: steps.map Step.now ++ now :: replies.map Reply.now).Pairwise (· ≤ ·))
    (hword : ∀ n ∈ now :: replies.map Reply.now, n < word64) : ∃ t', ending = .ok (.done, t') := by
  obtain ⟨ht, hview⟩ := Table.orderly_of_create hcreate
  cases hexits with
  | done => exact ⟨_, rfl⟩
  | @overflow closes f _ hoverflow =>
    have hreadings : (closes.map closed).map Reply.now = closes.map Prod.snd := by
      simp [closed, Function.comp_def]
    rw [hreadings] at hclock hword
    have hlast : lastClose now closes ∈ now :: closes.map Prod.snd := List.getLastD_mem_cons
    obtain ⟨-, hlater, -⟩ := List.pairwise_append.1 hclock
    have hle : now ≤ lastClose now closes := by
      rcases List.mem_cons.1 hlast with heq | hmem
      · exact Nat.le_of_eq heq.symm
      · exact List.rel_of_pairwise_cons hlater hmem
    have hnow : (start :: steps.map Step.now ++ [now]).Pairwise (· ≤ ·) :=
      hclock.sublist (List.Sublist.append_left (by simp) _)
    have haccounted : ∀ k, (t.record k).Accounted start := by
      intro k
      rw [← Table.view_record, hview]
      exact ⟨Nat.zero_le _, by rintro ⟨⟩⟩
    have hfits := (hrun.accounted ht haccounted hswitch hnow i).lt_of_running hle hrunning
      (hword _ hlast)
    exact absurd hfits (Nat.not_lt.2 hoverflow)

/-- **Exits.**  In every disciplined run, the exit of a running process other than the root process
ends if it is left alone, and has exactly this effect: its files are closed in order, the working
directory last; the sleepers on its parent and, if a child of it has exited, those on the root
process are woken in order; its children, in whatever stage, go to the root process; and it is the
last of the zombies, without size and files, with its last stint added to its ticks.  Everything
else stays as it was.  It does not fault on a clock that does not go back, if nobody has switched
away but by leaving the running stage. -/
theorem exits_of_history {t : Table P} (hcreate : Table.create P start = .ok (.ok t))
    (hrun : History { table := t } steps m)
    (hdisciplined : ∀ s ∈ steps, s.before.Disciplined s.event)
    (hi : m.table.occupant? cpu = some i) (hrunning : (m.table.record i).stage = .running)
    (hnotroot : m.table.root ≠ some i) (clock : Clock) :
    ∃ parent root, (m.table.record i).parent = some parent ∧ m.table.root = some root ∧
      Alone (fun replies ending => m.table.Exits cpu i parent root clock.now replies ending ∧
        ((∀ s ∈ steps, ∀ cpu left now, s.event ≠ .start (.switch cpu left) now) →
          (start :: steps.map Step.now ++ clock.now :: replies.map Reply.now).Pairwise (· ≤ ·) →
          (∀ n ∈ clock.now :: replies.map Reply.now, n < word64) →
            ∃ t', ending = .ok (.done, t')))
        [] ((Request.exit cpu).start clock m.table) := by
  have hm := hrun.kept (kept_of_create hcreate) hdisciplined
  have htree := hm.regular.tree
  have hstarted : m.table.view.Started i := (View.alive_of_running hrunning).started
  obtain ⟨parent, hparent⟩ := htree.exists_parent hstarted hnotroot
  obtain ⟨root, hroot, -⟩ := htree.lineage i hstarted
  have hne : root ≠ i := fun heq => hnotroot (heq ▸ hroot)
  refine ⟨parent, root, hparent, hroot,
    (hm.regular.orderly.alone_exit htree hi hrunning hparent hroot hne clock).mono ?_⟩
  intro replies ending hexits
  exact ⟨hexits, fun hswitch => done_of_exits hcreate hrun hrunning hswitch hexits⟩

/-- The child of a root process that waits for it runs, and may exit. -/
theorem exits_of_waiting : ∃ (t : Table ⟨2, 0, 1, 1, 1, true⟩) (steps : List (Step _))
    (m : Machine _), Table.create _ 0 = .ok (.ok t) ∧ History { table := t } steps m ∧
      m.table.occupant? 0 = some 1 ∧ m.table.view.sleepers (.process 1) = [0] ∧
      ∃ parent root, (m.table.record 1).parent = some parent ∧ m.table.root = some root ∧
        Alone (fun replies ending => m.table.Exits 0 1 parent root 0 replies ending ∧
          ((∀ s ∈ steps, ∀ cpu left now, s.event ≠ .start (.switch cpu left) now) →
            (0 :: steps.map Step.now ++ 0 :: replies.map Reply.now).Pairwise (· ≤ ·) →
            (∀ n ∈ 0 :: replies.map Reply.now, n < word64) → ∃ t', ending = .ok (.done, t')))
          [] ((Request.exit 0).start 0 m.table) := by
  obtain ⟨t, hcreate, hleads⟩ : ∃ t : Table ⟨2, 0, 1, 1, 1, true⟩,
      Table.create _ 0 = .ok (.ok t) ∧ Leads Disciplined (fun m =>
        m.table.occupant? 0 = some 1 ∧ (m.table.record 1).stage = .running ∧
          m.table.root ≠ some 1 ∧ m.table.view.sleepers (.process 1) = [0])
      [.start (.boot "" []) 0, .answer ⟨none, .allocating 0 (.root "" [])⟩ (some ⟨0⟩) 0,
        .answer ⟨none, .mapping 0 "" []⟩ (some ⟨0⟩) 0, .start (.dispatch 0) 0, .start (.fork 0) 0,
        .answer ⟨some 1, .allocating 1 (.child rootPlan)⟩ (some ⟨1⟩) 0,
        .answer ⟨some 1, .copying 1 rootPlan ⟨0⟩⟩ (some ⟨1⟩) 0, .start (.wait 0) 0,
        .start (.reclaim 0 ⟨0, 1⟩) 0, .start (.dispatch 0) 0] { table := t } := by
    have hnone {m : Machine ⟨2, 0, 1, 1, 1, true⟩} {e : Event} (hcpu : e.cpu? = none)
        (hback : e.givesBack = none) : m.Disciplined e :=
      (considerate_of_none hcpu hback).disciplined
    refine ⟨_, rfl, trivial, hnone rfl rfl, _, _, rfl, ?_⟩
    refine ⟨List.mem_cons_self, hnone rfl rfl, _, _, rfl, ?_⟩
    refine ⟨List.mem_cons_self, hnone rfl rfl, _, _, rfl, ?_⟩
    refine ⟨trivial, hnone rfl rfl, _, _, rfl, ?_⟩
    refine ⟨trivial, disciplined_of_works (i := 0) rfl rfl ⟨rfl, rfl, rfl⟩ nofun, _, _, rfl, ?_⟩
    refine ⟨List.mem_cons_self, hnone rfl rfl, _, _, rfl, ?_⟩
    refine ⟨List.mem_cons_self, hnone rfl rfl, _, _, rfl, ?_⟩
    refine ⟨trivial, disciplined_of_works (i := 0) rfl rfl ⟨rfl, rfl, rfl⟩ nofun, _, _, rfl, ?_⟩
    refine ⟨trivial, disciplined_of_reclaim rfl rfl List.mem_cons_self (by decide), _, _, rfl, ?_⟩
    refine ⟨trivial, hnone rfl rfl, _, _, rfl, ?_⟩
    exact ⟨rfl, rfl, by decide, rfl⟩
  obtain ⟨steps, m, hrun, -, hdisciplined, hi, hrunning, hnotroot, hsleepers⟩ :=
    hleads.exists_history
  exact ⟨t, steps, m, hcreate, hrun, hi, hsleepers,
    exits_of_history hcreate hrun hdisciplined hi hrunning hnotroot 0⟩

end Machine

end FeedbackQueue
