import FeedbackQueue.Machine.Run
import FeedbackQueue.Proofs.Acts

/-!
# Scripts

A `Script` tells which acts a stretch may make and how it may end.  There is one for every function
that makes stretches, of the same shape; the acts themselves carry what happens to the table.

A stretch of a table in order keeps to its script, leaves a table in order, and does not fault in an
audit: `Orderly.plays_start` and `Orderly.plays_resume`.  The one exception is a reclaim from a
process that is still running.

## Main definitions

* `Script.start`, `Script.resume` : the scripts of requests and of suspensions.
* `Table.Plays` : a stretch keeps to a script.

## Main statements

* `Script.cases_furnish_child`, `Script.cases_duplicateFiles`, `Script.cases_release` : the ends of
  the scripts that look at a record, for all that is said of requests by cases.
* `Orderly.plays_start`, `Orderly.plays_resume` : a stretch keeps to its script.
-/

namespace FeedbackQueue

/-- The handoff that a request gives back, with its CPU. -/
def Request.givesBack : Request → Option (Cpu × Handoff)
  | .reclaim cpu handoff => some (cpu, handoff)
  | _ => none

/-- The handoff that an answer gives back, with its CPU. -/
def Suspension.givesBack : (s : Suspension) → s.call.Answer → Option (Cpu × Handoff)
  | .running cpu _ _, handoff => some (cpu, handoff)
  | _, _ => none

/-- The acts that a stretch may make, and how it may end. -/
abbrev Script := List Act → Progress → Prop

namespace Script

/-- No act, and one end. -/
def only (p : Progress) : Script := fun acts q => acts = [] ∧ q = p

/-- One act, and one end. -/
def single (a : Act) (p : Progress) : Script := fun acts q => acts = [a] ∧ q = p

/-- One act before others. -/
def after (a : Act) (S : Script) : Script := fun acts p => ∃ rest, acts = a :: rest ∧ S rest p

/-! ### Birth -/

def allocateFor (purpose : Purpose) (now : Nat) : Script := fun acts p =>
  only (.returned (purpose.refused .outOfProcesses)) acts p ∨
    ∃ i, single (.conceive i now) (.waiting (.allocating i purpose)) acts p

def abandonFork (i : Slot) : Script := fun acts p =>
  (∃ stack, single (.abandon i) (.waiting (.undoing stack)) acts p) ∨
    single (.abandon i) (.returned (.created (.error .resourceExhausted))) acts p

def furnish (i : Slot) : Purpose → Script
  | .bare => only (.returned (.allocated (.ok i)))
  | .root name image => only (.waiting (.mapping i name image))
  | .child plan =>
    match plan.space with
    | some source => only (.waiting (.copying i plan source))
    | none => abandonFork i

def finishFork (i : Slot) (plan : Blueprint) (space : AddressSpace) (files : List FileHandle)
    (cwd : Option FileHandle) : Script := fun acts p =>
  ∃ pid, single (.launch i plan space files cwd) (.returned (.created (.ok pid))) acts p

def duplicateFiles (i : Slot) (plan : Blueprint) (space : AddressSpace)
    (copies : List FileHandle) : List FileHandle → Script
  | file :: rest => only (.waiting (.duplicating i plan space copies file rest))
  | [] =>
    match plan.cwd with
    | some dir => only (.waiting (.duplicatingCwd i plan space copies dir))
    | none => finishFork i plan space copies none

/-! ### Death -/

def closeFiles (cpu : Cpu) (last : Resumption) (now : Nat) : List FileHandle → Script
  | file :: rest => only (.waiting (.closing cpu last file rest))
  | [] => fun acts p => ∃ i, single (.retire cpu i now) (.waiting (.switching cpu last)) acts p

def exit (cpu : Cpu) (last : Resumption) (now : Nat) : Script := fun acts p =>
  ∃ i files, after (.surrender cpu i) (closeFiles cpu last now files) acts p

def releaseSpace (reaper : Reaper) (pid : Pid) : Option AddressSpace → Script
  | some space => only (.waiting (.freeingSpace reaper pid space))
  | none => only (.returned (reaper.outcome pid))

def release (reaper : Reaper) (remains : Remains) : Script :=
  match remains.stack with
  | some stack => only (.waiting (.freeingStack reaper remains.pid stack remains.space))
  | none => releaseSpace reaper remains.pid remains.space

def waitRound (cpu : Cpu) (now : Nat) : Script := fun acts p =>
  only (.returned (.waited (.error .noChildren) cpu)) acts p ∨
    (∃ me i remains, after (.reap cpu me i) (release (.wait cpu) remains) acts p) ∨
    ∃ me, single (.await cpu me now) (.waiting (.switching cpu .wait)) acts p

def poll (cpu : Cpu) : Script := fun acts p =>
  (∃ result, (∀ pid, result ≠ .ok (some pid)) ∧ only (.returned (.polled result)) acts p) ∨
    ∃ me i remains, after (.reap cpu me i) (release .poll remains) acts p

/-! ### Sleeping -/

def park (cpu : Cpu) (channel : Channel) (now : Nat) (last : Resumption) : Script := fun acts p =>
  ∃ i, single (.park cpu i channel now) (.waiting (.switching cpu last)) acts p

def sleepRound (cpu : Cpu) (start ticks now : Nat) : Script := fun acts p =>
  (∃ result, only (.returned (.slept result cpu)) acts p) ∨
    park cpu .ticks now (.sleepFor start ticks) acts p

def proceed (cpu : Cpu) (now : Nat) : Resumption → Script
  | .exit => only (.returned .done)
  | .terminate => fun _ _ => False
  | .wait => waitRound cpu now
  | .proceed => only (.returned (.resumed cpu))
  | .sleepFor start ticks => sleepRound cpu start ticks now

/-! ### Dispatching -/

def dispatchRound (cpu : Cpu) (forever : Bool) (now : Nat) : Script := fun acts p =>
  (∃ handoff, single (.dispatch cpu handoff now) (.waiting (.running cpu handoff forever)) acts p) ∨
    single (.sweepIfDue now)
      (if forever then .waiting (.idling cpu) else .returned (.passed false)) acts p

def reclaimRound (cpu : Cpu) (handoff : Handoff) (forever : Bool) (now : Nat) : Script :=
  single (.reclaim cpu handoff.slot now)
    (if forever then .waiting (.enabling cpu true) else .returned (.passed true))

/-! ### The machine -/

/-- A request that is refused, or makes one act on some slot. -/
def refusable (act : Slot → Act) : Script := fun acts p =>
  (∃ why, only (.returned (.answered (.error why))) acts p) ∨
    ∃ i, single (act i) (.returned (.answered (.ok ()))) acts p

/-- The script of a request. -/
def start (clock : Clock) : Request → Script
  | .allocate => allocateFor .bare clock.now
  | .boot name image => allocateFor (.root name image) clock.now
  | .fork cpu => fun acts p =>
    ∃ plan, after (.copy cpu plan) (allocateFor (.child plan) clock.now) acts p
  | .exit cpu => exit cpu .exit clock.now
  | .terminate cpu => exit cpu .terminate clock.now
  | .wait cpu => waitRound cpu clock.now
  | .poll cpu => poll cpu
  | .sleep cpu channel => park cpu channel clock.now .proceed
  | .sleepFor cpu ticks => sleepRound cpu clock.begun ticks clock.now
  | .yield cpu => fun acts p =>
    ∃ i, single (.yield cpu i clock.now) (.waiting (.switching cpu .proceed)) acts p
  | .switch cpu left => fun acts p =>
    ∃ i, single (.depart cpu i left) (.waiting (.switching cpu .proceed)) acts p
  | .pass cpu => only (.waiting (.enabling cpu false))
  | .serve cpu => only (.waiting (.enabling cpu true))
  | .dispatch cpu => fun acts p =>
    only (.returned (.dispatched none)) acts p ∨
      ∃ handoff, single (.dispatch cpu handoff clock.now)
        (.returned (.dispatched (some handoff))) acts p
  | .reclaim cpu handoff => single (.reclaim cpu handoff.slot clock.now) (.returned .done)
  | .signal channel => fun acts p =>
    ∃ count, single (.wake channel) (.returned (.woken count)) acts p
  | .tick => single (.wake .ticks) (.returned .done)
  | .rouse i => single (.rouse i) (.returned .done)
  | .kill _ => refusable fun i => .kill i
  | .setPriority _ priority => refusable fun i => .assign i priority
  | .setUid cpu uid => refusable fun i => .setUid cpu i uid
  | .setGid cpu gid => refusable fun i => .setGid cpu i gid
  | .sweep => single .sweep (.returned .done)
  | .sweepIfDue due => single (.sweepIfDue due) (.returned .done)

/-- The script of a suspension. -/
def resume (clock : Clock) : (s : Suspension) → s.call.Answer → Script
  | .allocating i purpose, some stack => after (.giveStack i stack) (furnish i purpose)
  | .allocating i purpose, none =>
    single (.discard i) (.returned (purpose.refused .resourceExhausted))
  | .mapping i name _, some space => fun acts p =>
    ∃ pid, single (.crown i name space) (.returned (.created (.ok pid))) acts p
  | .mapping _ _ _, none => fun _ _ => False
  | .copying i plan _, some space => duplicateFiles i plan space [] plan.files
  | .copying i _ _, none => abandonFork i
  | .duplicating i plan space copies _ rest, copy =>
    duplicateFiles i plan space (copies ++ [copy]) rest
  | .duplicatingCwd i plan space copies _, copy => finishFork i plan space copies (some copy)
  | .undoing _, () => only (.returned (.created (.error .resourceExhausted)))
  | .closing cpu last _ rest, () => closeFiles cpu last clock.now rest
  | .switching _ resumption, cpu => proceed cpu clock.now resumption
  | .freeingStack reaper pid _ space, () => releaseSpace reaper pid space
  | .freeingSpace reaper pid _, () => only (.returned (reaper.outcome pid))
  | .enabling cpu forever, () => dispatchRound cpu forever clock.now
  | .running cpu _ forever, handoff => reclaimRound cpu handoff forever clock.now
  | .idling cpu, () => only (.waiting (.enabling cpu true))

/-! ### Ends of scripts that look at a record -/

section Ends

variable {i : Slot} {plan : Blueprint} {acts : List Act} {p : Progress}

/-- A child with a stack waits for a copy of the space of its parent, or is given up. -/
theorem cases_furnish_child (h : furnish i (.child plan) acts p) :
    (∃ source, plan.space = some source ∧ only (.waiting (.copying i plan source)) acts p) ∨
      (plan.space = none ∧ abandonFork i acts p) := by
  unfold furnish at h
  cases hspace : plan.space with
  | some source =>
    simp only [hspace] at h
    exact .inl ⟨source, rfl, h⟩
  | none =>
    simp only [hspace] at h
    exact .inr ⟨rfl, h⟩

/-- The files come first, then the working directory, and a child with all of them is launched. -/
theorem cases_duplicateFiles {space : AddressSpace} {copies files : List FileHandle}
    (h : duplicateFiles i plan space copies files acts p) :
    (∃ file rest, only (.waiting (.duplicating i plan space copies file rest)) acts p) ∨
      (∃ dir, only (.waiting (.duplicatingCwd i plan space copies dir)) acts p) ∨
      finishFork i plan space copies none acts p := by
  cases files with
  | cons file rest => exact .inl ⟨file, rest, h⟩
  | nil =>
    unfold duplicateFiles at h
    cases hcwd : plan.cwd with
    | some dir =>
      rw [hcwd] at h
      exact .inr (.inl ⟨dir, h⟩)
    | none =>
      rw [hcwd] at h
      exact .inr (.inr h)

/-- The stack comes first, then the address space, and then the child is reaped. -/
theorem cases_release {reaper : Reaper} {remains : Remains} (h : release reaper remains acts p) :
    (∃ stack space, only (.waiting (.freeingStack reaper remains.pid stack space)) acts p) ∨
      (∃ space, only (.waiting (.freeingSpace reaper remains.pid space)) acts p) ∨
      only (.returned (reaper.outcome remains.pid)) acts p := by
  unfold release at h
  cases hstack : remains.stack with
  | some stack =>
    rw [hstack] at h
    exact .inl ⟨stack, _, h⟩
  | none =>
    rw [hstack] at h
    cases hspace : remains.space with
    | some space =>
      rw [hspace] at h
      exact .inr (.inl ⟨space, h⟩)
    | none =>
      rw [hspace] at h
      exact .inr (.inr h)

end Ends

end Script

namespace Table

variable {P : Params} {t t' : Table P} {r : Stretch P} {S : Script} {a : Act} {p : Progress}
  {i : Slot} {cpu : Cpu} {now : Nat}

/-- A stretch keeps to a script, leaves a table in order, and does not fault in an audit. -/
def Plays (t : Table P) (r : Stretch P) (S : Script) : Prop :=
  Yields False r fun (p, t') => t'.Orderly ∧ ∃ acts, t.view.Follows P acts t'.view ∧ S acts p

theorem Plays.mono {S' : Script} (h : t.Plays r S) (hS : ∀ acts p, S acts p → S' acts p) :
    t.Plays r S' :=
  h.weaken fun _ ⟨h', acts, hacts, hs⟩ => ⟨h', acts, hacts, hS acts _ hs⟩

/-- A stretch that goes on after an act. -/
theorem Plays.after (h : t'.Plays r S) (he : a.Enabled t.view)
    (hview : t'.view = a.apply P t.view) : t.Plays r (.after a S) :=
  h.weaken fun _ ⟨h', acts, hacts, hs⟩ => ⟨h', a :: acts, ⟨he, hview ▸ hacts⟩, acts, rfl, hs⟩

theorem Orderly.plays_only (h : t.Orderly) : t.Plays (.ok (p, t)) (.only p) :=
  .ok ⟨h, [], rfl, rfl, rfl⟩

/-- A stretch of one act. -/
theorem Orderly.plays_single (h : t'.Orderly) (he : a.Enabled t.view)
    (hview : t'.view = a.apply P t.view) : t.Plays (.ok (p, t')) (.single a p) :=
  .ok ⟨h, [a], ⟨he, hview⟩, rfl, rfl⟩

/-! ### Birth -/

theorem Orderly.plays_allocateFor (h : t.Orderly) {purpose : Purpose} :
    t.Plays (t.allocateFor purpose now) (.allocateFor purpose now) := by
  unfold allocateFor
  refine (h.yields_conceive.restrict False.elim).bind fun result hresult => ?_
  split
  · exact h.plays_only.mono fun _ _ => .inl
  · obtain ⟨h', hhead, hstage, hview⟩ := hresult
    exact (h'.plays_single (a := .conceive _ now) ⟨hhead, hstage⟩ hview).mono
      fun _ _ hs => .inr ⟨_, hs⟩

theorem Orderly.plays_abandonFork (h : t.Orderly) : t.Plays (t.abandonFork i) (.abandonFork i) := by
  unfold abandonFork
  refine (h.yields_abandon.restrict False.elim).bind ?_
  rintro ⟨stack, t'⟩ ⟨h', _, hstage, hview⟩
  cases stack with
  | some stack =>
    exact (h'.plays_single (a := .abandon i) hstage hview).mono fun _ _ hs => .inl ⟨stack, hs⟩
  | none => exact (h'.plays_single (a := .abandon i) hstage hview).mono fun _ _ => .inr

theorem Orderly.plays_furnish (h : t.Orderly) {purpose : Purpose} :
    t.Plays (t.furnish i purpose) (.furnish i purpose) := by
  cases purpose with
  | bare => exact h.plays_only
  | root name image => exact h.plays_only
  | child plan =>
    unfold furnish Script.furnish
    dsimp only
    cases plan.space with
    | some source => exact h.plays_only
    | none => exact h.plays_abandonFork

theorem Orderly.plays_finishFork (h : t.Orderly) {plan : Blueprint} {space : AddressSpace}
    {files : List FileHandle} {cwd : Option FileHandle} :
    t.Plays (t.finishFork i plan space files cwd) (.finishFork i plan space files cwd) := by
  unfold finishFork
  refine (h.yields_launch.restrict False.elim).bind ?_
  rintro ⟨pid, t'⟩ ⟨h', _, hstage, hview⟩
  exact (h'.plays_single (a := .launch i plan space files cwd) hstage hview).mono
    fun _ _ hs => ⟨pid, hs⟩

theorem Orderly.plays_duplicateFiles (h : t.Orderly) {plan : Blueprint} {space : AddressSpace}
    {copies files : List FileHandle} :
    t.Plays (t.duplicateFiles i plan space copies files)
      (.duplicateFiles i plan space copies files) := by
  cases files with
  | cons file rest => exact h.plays_only
  | nil =>
    unfold duplicateFiles Script.duplicateFiles
    cases plan.cwd with
    | some dir => exact h.plays_only
    | none => exact h.plays_finishFork

/-! ### Death -/

theorem Orderly.plays_closeFiles (h : t.Orderly) {last : Resumption} {files : List FileHandle} :
    t.Plays (t.closeFiles cpu last now files) (.closeFiles cpu last now files) := by
  cases files with
  | cons file rest => exact h.plays_only
  | nil =>
    unfold closeFiles
    refine (h.yields_retire.restrict False.elim).bind ?_
    rintro t' ⟨h', i, hi, hstage, hview⟩
    exact (h'.plays_single (a := .retire cpu i now) ⟨hi, hstage⟩ hview).mono fun _ _ hs => ⟨i, hs⟩

theorem Orderly.plays_exit (h : t.Orderly) {last : Resumption} :
    t.Plays (t.exit cpu last now) (.exit cpu last now) := by
  unfold exit
  refine (h.yields_surrenderFiles.restrict False.elim).bind ?_
  rintro ⟨files, t'⟩ ⟨h', i, hi, hroot, _, hview⟩
  exact (h'.plays_closeFiles.after (a := .surrender cpu i) ⟨hi, hroot⟩ hview).mono
    fun _ _ hs => ⟨i, files, hs⟩

theorem Orderly.plays_releaseSpace (h : t.Orderly) {reaper : Reaper} {pid : Pid}
    {space : Option AddressSpace} :
    t.Plays (t.releaseSpace reaper pid space) (.releaseSpace reaper pid space) := by
  cases space <;> exact h.plays_only

theorem Orderly.plays_release (h : t.Orderly) {reaper : Reaper} {remains : Remains} :
    t.Plays (t.release reaper remains) (.release reaper remains) := by
  unfold release Script.release
  cases remains.stack with
  | some stack => exact h.plays_only
  | none => exact h.plays_releaseSpace

theorem Orderly.plays_waitRound (h : t.Orderly) :
    t.Plays (t.waitRound cpu now) (.waitRound cpu now) := by
  unfold waitRound
  refine (h.yields_scan.restrict False.elim).bind ?_
  rintro result ⟨me, hme, hfinds⟩
  cases result with
  | noChildren => exact h.plays_only.mono fun _ _ => .inl
  | reaped remains t' =>
    obtain ⟨h', i, hreapable, -, hview, -⟩ := hfinds
    refine .bind_eq h'.settle_eq ?_
    exact (h'.plays_release.after (a := .reap cpu me i) ⟨hme, hreapable⟩ hview).mono
      fun _ _ hs => .inr (.inl ⟨me, i, remains, hs⟩)
  | pending =>
    obtain ⟨hchild, hkilled, hnone⟩ := hfinds
    -- the caller sleeps on its own pid, which is read first
    refine (yields_current.restrict False.elim).bind ?_
    rintro _ ⟨i, hi, rfl⟩
    cases hme.symm.trans hi
    refine (h.yields_park.restrict False.elim).bind ?_
    rintro t' ⟨h', i, hi, hstage, hview⟩
    rw [hme] at hi
    cases hi
    have hpending : (Act.await cpu me now).Enabled t.view := ⟨hme, hstage, hchild, hkilled, hnone⟩
    exact (h'.plays_single hpending hview).mono fun _ _ hs => .inr (.inr ⟨me, hs⟩)

theorem Orderly.plays_poll (h : t.Orderly) : t.Plays (t.poll cpu) (.poll cpu) := by
  unfold poll
  refine (h.yields_scan.restrict False.elim).bind ?_
  rintro result ⟨me, hme, hfinds⟩
  cases result with
  | noChildren => exact h.plays_only.mono fun _ _ hs => .inl ⟨.error .noChildren, nofun, hs⟩
  | reaped remains t' =>
    obtain ⟨h', i, hreapable, -, hview, -⟩ := hfinds
    refine .bind_eq h'.settle_eq ?_
    exact (h'.plays_release.after (a := .reap cpu me i) ⟨hme, hreapable⟩ hview).mono
      fun _ _ hs => .inr ⟨me, i, remains, hs⟩
  | pending => exact h.plays_only.mono fun _ _ hs => .inl ⟨.ok none, nofun, hs⟩

/-! ### Sleeping -/

theorem Orderly.plays_park (h : t.Orderly) {channel : Channel} {last : Resumption} :
    t.Plays (do let t ← t.park cpu channel now; t.suspend (.switching cpu last))
      (.park cpu channel now last) := by
  refine (h.yields_park.restrict False.elim).bind ?_
  rintro t' ⟨h', i, hi, hstage, hview⟩
  exact (h'.plays_single (a := .park cpu i channel now) ⟨hi, hstage⟩ hview).mono
    fun _ _ hs => ⟨i, hs⟩

theorem Orderly.plays_sleepRound (h : t.Orderly) {start ticks seen : Nat} :
    t.Plays (t.sleepRound cpu start ticks seen now) (.sleepRound cpu start ticks now) := by
  unfold sleepRound
  split
  · exact h.plays_only.mono fun _ _ hs => .inl ⟨_, hs⟩
  · refine (yields_current.restrict False.elim).bind fun me _ => ?_
    split
    · exact h.plays_only.mono fun _ _ hs => .inl ⟨_, hs⟩
    · exact h.plays_park.mono fun _ _ => .inr

theorem Orderly.plays_proceed (h : t.Orderly) {clock : Clock} {resumption : Resumption} :
    t.Plays (t.proceed cpu clock resumption) (.proceed cpu clock.now resumption) := by
  cases resumption with
  | exit => exact h.plays_only
  | terminate => exact .error id rfl
  | wait => exact h.plays_waitRound
  | proceed => exact h.plays_only
  | sleepFor start ticks => exact h.plays_sleepRound

/-! ### Dispatching -/

theorem Orderly.plays_dispatchRound (h : t.Orderly) {forever : Bool} :
    t.Plays (t.dispatchRound cpu forever now) (.dispatchRound cpu forever now) := by
  unfold dispatchRound
  refine (h.yields_dispatch.restrict False.elim).bind fun result hresult => ?_
  split
  · obtain ⟨h', hidle, hnext, hpid, hview⟩ := hresult
    obtain ⟨-, hstage, hfree⟩ := h.sound.of_next?_eq_some hnext
    exact (h'.plays_single (a := .dispatch cpu _ now) ⟨hidle, hstage, hfree, hpid⟩ hview).mono
      fun _ _ hs => .inl ⟨_, hs⟩
  · refine (h.yields_rest.restrict False.elim).bind ?_
    rintro t' ⟨h', hview⟩
    cases forever <;>
    · exact (h'.plays_single (a := .sweepIfDue now) trivial hview).mono fun _ _ => .inr

theorem Orderly.plays_reclaim (h : t.Orderly) {handoff : Handoff}
    (hleft : P.audited = true → ¬ t.Misused cpu handoff) :
    t.Plays (do let t ← t.reclaim cpu handoff now; .ok (p, t))
      (.single (.reclaim cpu handoff.slot now) p) := by
  refine ((h.yields_reclaim hleft).restrict False.elim).bind ?_
  rintro t' ⟨h', hcpu, hview⟩
  exact h'.plays_single (a := .reclaim cpu handoff.slot now) hcpu hview

theorem Orderly.plays_reclaimRound (h : t.Orderly) {handoff : Handoff} {forever : Bool}
    (hleft : P.audited = true → ¬ t.Misused cpu handoff) :
    t.Plays (t.reclaimRound cpu handoff forever now)
      (.reclaimRound cpu handoff forever now) := by
  cases forever <;> exact h.plays_reclaim hleft

/-! ### The machine -/

theorem Orderly.plays_finishOr (h : t.Orderly) {result : Except Refusal (Table P)}
    {act : Slot → Act} (hresult : ∀ t', result = .ok t' →
      t'.Orderly ∧ ∃ i, (act i).Enabled t.view ∧ t'.view = (act i).apply P t.view) :
    t.Plays (t.finishOr result) (.refusable act) := by
  cases result with
  | error why => exact h.plays_only.mono fun _ _ hs => .inl ⟨why, hs⟩
  | ok t' =>
    obtain ⟨h', i, he, hview⟩ := hresult t' rfl
    exact (h'.plays_single he hview).mono fun _ _ hs => .inr ⟨i, hs⟩

/-- A table in order stays so in a quiet change. -/
theorem Orderly.of_quiet (h : t.Orderly) (h' : t'.Sound) (hquiet : t.view.Quiet t'.view) :
    t'.Orderly :=
  h.of_running h' hquiet.2 hquiet.1

/-- **Every request keeps to its script**, unless it takes a CPU back from a running process. -/
theorem Orderly.plays_start (h : t.Orderly) {clock : Clock} {r : Request}
    (hleft : P.audited = true → ∀ cpu handoff, r.givesBack = some (cpu, handoff) →
      ¬ t.Misused cpu handoff) : t.Plays (r.start clock t) (.start clock r) := by
  cases r with
  | allocate => exact h.plays_allocateFor
  | boot name image =>
    unfold Request.start
    cases hroot : t.root with
    | some r => exact .error id rfl
    | none => exact h.plays_allocateFor
  | fork cpu =>
    unfold Request.start
    refine ((yields_blueprint h.sound).restrict False.elim).bind fun plan hplan => ?_
    exact (h.plays_allocateFor.after (a := .copy cpu plan) hplan.1 rfl).mono
      fun _ _ hs => ⟨plan, hs⟩
  | exit cpu => exact h.plays_exit
  | terminate cpu => exact h.plays_exit
  | wait cpu => exact h.plays_waitRound
  | poll cpu => exact h.plays_poll
  | sleep cpu channel => exact h.plays_park
  | sleepFor cpu ticks => exact h.plays_sleepRound
  | yield cpu =>
    unfold Request.start
    refine (h.yields_yield.restrict False.elim).bind ?_
    rintro t' ⟨h', i, hi, hstage, hview⟩
    exact (h'.plays_single (a := .yield cpu i clock.now) ⟨hi, hstage⟩ hview).mono
      fun _ _ hs => ⟨i, hs⟩
  | switch cpu left =>
    unfold Request.start
    refine (h.yields_depart.restrict False.elim).bind ?_
    rintro t' ⟨h', i, hi, hstage, hview⟩
    exact (h'.plays_single (a := .depart cpu i left) ⟨hi, hstage⟩ hview).mono fun _ _ hs => ⟨i, hs⟩
  | pass cpu => exact h.plays_only
  | serve cpu => exact h.plays_only
  | dispatch cpu =>
    unfold Request.start
    refine (h.yields_dispatch.restrict False.elim).bind fun result hresult => ?_
    split
    · obtain ⟨h', hidle, hnext, hpid, hview⟩ := hresult
      obtain ⟨-, hstage, hfree⟩ := h.sound.of_next?_eq_some hnext
      exact (h'.plays_single (a := .dispatch cpu _ clock.now) ⟨hidle, hstage, hfree, hpid⟩
        hview).mono fun _ _ hs => .inr ⟨_, hs⟩
    · exact h.plays_only.mono fun _ _ => .inl
  | reclaim cpu handoff => exact h.plays_reclaim fun ha => hleft ha cpu handoff rfl
  | signal channel =>
    obtain ⟨t', e, h', hview⟩ := h.signal_eq_ok channel
    refine .bind_eq e ?_
    exact (h'.plays_single (a := .wake channel) trivial hview).mono fun _ _ hs => ⟨_, hs⟩
  | tick =>
    obtain ⟨t', e, h', hview⟩ := h.tick_eq_ok
    exact .bind_eq e (h'.plays_single (a := .wake .ticks) trivial hview)
  | rouse i =>
    unfold Request.start
    refine (h.yields_rouse.restrict False.elim).bind ?_
    rintro t' ⟨h', hstage, hview⟩
    exact h'.plays_single (a := .rouse i) hstage hview
  | kill pid =>
    refine (h.yields_kill.restrict False.elim).bind fun result hresult => h.plays_finishOr ?_
    rintro t' rfl
    obtain ⟨h', i, _, hstage, hview⟩ := hresult
    exact ⟨h', i, hstage, hview⟩
  | setPriority pid priority =>
    refine (h.yields_setPriority.restrict False.elim).bind fun result hresult => h.plays_finishOr ?_
    rintro t' rfl
    obtain ⟨h', _, i, _, hactive, hview⟩ := hresult
    exact ⟨h', i, hactive, hview⟩
  | setUid cpu uid =>
    refine (h.yields_setUid.restrict False.elim).bind fun result hresult => h.plays_finishOr ?_
    rintro t' rfl
    exact hresult
  | setGid cpu gid =>
    refine (h.yields_setGid.restrict False.elim).bind fun result hresult => h.plays_finishOr ?_
    rintro t' rfl
    exact hresult
  | sweep =>
    unfold Request.start
    refine (h.sound.yields_sweep.restrict False.elim).bind ?_
    rintro t' ⟨h', hview⟩
    have h'' : t'.Orderly := h.of_quiet h' (hview ▸ View.quiet_sweep)
    exact h''.plays_single (a := .sweep) trivial hview
  | sweepIfDue due =>
    unfold Request.start
    refine (h.sound.yields_sweepIfDue.restrict False.elim).bind ?_
    rintro t' ⟨h', hview⟩
    have h'' : t'.Orderly := h.of_quiet h' (hview ▸ View.quiet_sweepIfDue)
    exact h''.plays_single (a := .sweepIfDue due) trivial hview

/-- **Every suspension keeps to its script**, unless it takes a CPU back from a running process. -/
theorem Orderly.plays_resume (h : t.Orderly) {clock : Clock} {s : Suspension}
    {answer : s.call.Answer}
    (hleft : P.audited = true → ∀ cpu handoff, s.givesBack answer = some (cpu, handoff) →
      ¬ t.Misused cpu handoff) : t.Plays (s.resume clock t answer) (.resume clock s answer) := by
  cases s with
  | allocating i purpose =>
    cases answer with
    | some stack =>
      unfold Suspension.resume
      refine (h.yields_giveStack.restrict False.elim).bind ?_
      rintro t' ⟨h', hview⟩
      exact h'.plays_furnish.after (a := .giveStack i stack) trivial hview
    | none =>
      unfold Suspension.resume
      refine (h.yields_discard.restrict False.elim).bind ?_
      rintro t' ⟨h', hstage, hview⟩
      exact h'.plays_single (a := .discard i) hstage hview
  | mapping i name image =>
    cases answer with
    | some space =>
      unfold Suspension.resume
      refine (h.yields_crown.restrict False.elim).bind ?_
      rintro ⟨pid, t'⟩ ⟨h', hroot, _, hstage, hview⟩
      exact (h'.plays_single (a := .crown i name space) ⟨hroot, hstage⟩ hview).mono
        fun _ _ hs => ⟨pid, hs⟩
    | none => exact .error id rfl
  | copying i plan source =>
    cases answer with
    | some space => exact h.plays_duplicateFiles
    | none => exact h.plays_abandonFork
  | duplicating i plan space copies file rest => exact h.plays_duplicateFiles
  | duplicatingCwd i plan space copies dir => exact h.plays_finishFork
  | undoing stack => exact h.plays_only
  | closing cpu last file rest => exact h.plays_closeFiles
  | switching cpu resumption => exact h.plays_proceed
  | freeingStack reaper pid stack space => exact h.plays_releaseSpace
  | freeingSpace reaper pid space => exact h.plays_only
  | enabling cpu forever => exact h.plays_dispatchRound
  | running cpu handoff forever =>
    exact h.plays_reclaimRound fun ha => hleft ha cpu answer rfl
  | idling cpu => exact h.plays_only

end Table

end FeedbackQueue
