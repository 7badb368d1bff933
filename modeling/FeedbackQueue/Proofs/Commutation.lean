import FeedbackQueue.Proofs.Forks
import FeedbackQueue.Proofs.Scans

/-!
# Kills and priorities

To kill a process and to set its priority are changes that commute.  A sleeper that is killed goes
to the end of its old level, and when its priority is set after that it leaves that end for the end
of the new level; in the other order it is relabelled while it sleeps and goes to the new level at
once.  What the first order appends in between it also takes away, and the answers do not depend on
the order either, since both requests leave pids and phases alone.

## Main definitions

* `Request.Answers` : a request that is answered at once, whatever the clock says.

## Main statements

* `View.assign_kill` : the two changes of a view commute.
* `Orderly.exists_answers_kill_setPriority` : so do the requests, on a table.
* `Machine.kill_setPriority_of_history` : and in every state that a run comes to.
-/

namespace FeedbackQueue

theorem Stage.phase_eq_alive {s : Stage} : s.phase = .alive ↔ s.isActive = true := by
  cases s <;> decide

/-! ### The view -/

namespace View

variable {P : Params} {v : View} {i : Slot} {f g : Process → Process} {priority : Nat}

/-- A move of a slot that has been changed at home. -/
theorem shift_revise (h : (f (v.record i)).home = (v.record i).home) :
    (v.revise i f).shift i g = v.shift i fun p => g (f p) := by
  refine View.ext (by simp) ?_ rfl rfl rfl rfl
  simp [shift, append, drop, h]

theorem kill_of_sleeping (h : (v.record i).stage = .sleeping) :
    v.kill i = v.shift i fun p => Process.awaken { p with killed := true } := by
  have hstage : ((v.revise i fun p => { p with killed := true }).record i).stage = .sleeping := by
    simpa using h
  unfold kill
  rw [if_pos hstage, shift_revise (Process.home_congr rfl fun _ => rfl)]

theorem kill_of_ne_sleeping (h : (v.record i).stage ≠ .sleeping) :
    v.kill i = v.revise i fun p => { p with killed := true } := by
  have hstage : ((v.revise i fun p => { p with killed := true }).record i).stage ≠ .sleeping := by
    simpa using h
  unfold kill
  rw [if_neg hstage]

/-- A slot that has been taken to the end of its ready level and is then put on a level might as
well have been taken there. -/
theorem assign_shift (hloose : ∀ place, i ∉ (v.drop i).queue place)
    (hstage : (f (v.record i)).stage = .runnable) : (v.shift i f).assign P i priority =
      v.shift i fun p => { f p with priority, budget := P.budget } := by
  unfold assign
  dsimp only
  split
  · exact shift_shift (hloose _)
  · rename_i hstays
    rw [shift_record, Function.update_self] at hstays
    have hpriority : (f (v.record i)).priority = priority :=
      not_not.1 fun hne => hstays ⟨hstage, hne⟩
    exact revise_shift (Process.home_congr rfl fun _ => hpriority.symm)

/-- **A kill and a change of priority commute.** -/
theorem assign_kill (hloose : ∀ place, i ∉ (v.drop i).queue place) :
    (v.kill i).assign P i priority = (v.assign P i priority).kill i := by
  by_cases hsleeping : (v.record i).stage = .sleeping
  · -- the sleeper goes to a level, at once or by way of its old one
    have hassign : v.assign P i priority =
        v.revise i fun p => { p with priority, budget := P.budget } := if_neg (by simp [hsleeping])
    have hstage : ((v.assign P i priority).record i).stage = .sleeping := by
      simpa [assign_record] using hsleeping
    rw [kill_of_sleeping hsleeping, assign_shift hloose rfl, kill_of_sleeping hstage, hassign,
      shift_revise]
    · rfl
    · exact Process.home_congr rfl fun hs => by cases hsleeping.symm.trans hs
  · -- nobody is woken, and the flag does not matter to the level
    have hstage : ((v.assign P i priority).record i).stage ≠ .sleeping := by
      simpa [assign_record] using hsleeping
    rw [kill_of_ne_sleeping hsleeping, kill_of_ne_sleeping hstage]
    unfold assign
    simp only [revise_record, Function.update_self]
    split
    · rw [shift_revise (Process.home_congr rfl fun _ => rfl),
        revise_shift (Process.home_congr rfl fun _ => rfl)]
    · rw [revise_revise, revise_revise]

end View

/-! ### Requests -/

/-- A request is answered at once, at any reading of the clock, and leaves a table. -/
def Request.Answers {P : Params} (r : Request) (t : Table P) (answer : Except Refusal Unit)
    (t' : Table P) : Prop :=
  ∀ clock, r.start clock t = .ok (.returned (.answered answer), t')

namespace Table

variable {P : Params} {t t' : Table P} {i : Slot} {pid : Pid} {priority : Nat}
  {stages : List Stage}

/-! #### Look-ups -/

/-- A process is found by its pid in the stages that contain its own. -/
theorem Sound.find_pid (h : t.Sound) (hn : t.view.Numbered) (hi : (t.record i).stage ≠ .unused)
    (hmem : (t.record i).stage ∈ stages) : t.find (t.record i).pid stages = .ok (some i) := by
  have hne : (t.record i).pid ≠ nobody := mt (hn.pid_eq_nobody_iff i).1 hi
  obtain ⟨found, e⟩ : ∃ found, t.find (t.record i).pid stages = .ok found := ⟨_, h.find_eq_ok _ _⟩
  cases found with
  | none => exact absurd hmem (h.not_of_find_eq_none e (lt_of_stage_ne hi) rfl hne)
  | some j =>
    obtain ⟨-, -, hpid, -⟩ := h.of_find_eq_some e
    rw [e, eq_of_pid hn hpid (hpid.symm ▸ hne)]

/-- A pid that nobody in these stages has is not found. -/
theorem Sound.find_eq_none (h : t.Sound)
    (hnone : ∀ i, (t.record i).pid = pid → (t.record i).stage ∉ stages) :
    t.find pid stages = .ok none := by
  obtain ⟨found, e⟩ : ∃ found, t.find pid stages = .ok found := ⟨_, h.find_eq_ok _ _⟩
  cases found with
  | none => exact e
  | some j =>
    obtain ⟨-, -, hpid, hstage⟩ := h.of_find_eq_some e
    exact absurd hstage (hnone j hpid)

/-- A kill is refused only where nobody is found. -/
theorem find_of_kill_eq_error {why : Refusal} (e : t.kill pid = .ok (.error why)) :
    t.find pid searched = .ok none := by
  obtain ⟨found, hfind, e⟩ := bind_eq_ok.1 e
  cases found with
  | none => exact hfind
  | some i =>
    obtain ⟨t₁, -, e⟩ := bind_eq_ok.1 e
    obtain ⟨p, -, e⟩ := bind_eq_ok.1 e
    dsimp only at e
    split at e
    all_goals
      obtain ⟨t₂, -, e⟩ := bind_eq_ok.1 e
      obtain ⟨t₃, -, e⟩ := bind_eq_ok.1 e
      cases e

/-- A priority within the levels is refused only where nobody is found. -/
theorem find_of_setPriority_eq_error {why : Refusal} (hle : priority ≤ P.maxPriority)
    (e : t.setPriority pid priority = .ok (.error why)) :
    t.find pid [.running, .runnable, .sleeping] = .ok none := by
  unfold setPriority at e
  rw [if_neg (Nat.not_lt.2 hle)] at e
  obtain ⟨found, hfind, e⟩ := bind_eq_ok.1 e
  cases found with
  | none => exact hfind
  | some i =>
    obtain ⟨p, -, e⟩ := bind_eq_ok.1 e
    dsimp only at e
    split at e
    · obtain ⟨t₁, -, e⟩ := bind_eq_ok.1 e
      obtain ⟨t₂, -, e⟩ := bind_eq_ok.1 e
      obtain ⟨t₃, -, e⟩ := bind_eq_ok.1 e
      obtain ⟨t₄, -, e⟩ := bind_eq_ok.1 e
      cases e
    · obtain ⟨t₁, -, e⟩ := bind_eq_ok.1 e
      obtain ⟨t₂, -, e⟩ := bind_eq_ok.1 e
      cases e

/-! #### Answers -/

/-- A process in use is killed. -/
theorem Orderly.answers_kill (h : t.Orderly) (hn : t.view.Numbered)
    (hi : (t.record i).stage.phase ≠ .free) :
    ∃ t', (Request.kill (t.record i).pid).Answers t (.ok ()) t' ∧ t'.Orderly ∧
      t'.view = t.view.kill i := by
  have hstage : (t.record i).stage ≠ .unused := mt Stage.phase_eq_free.2 hi
  have hyields : Yields True (t.kill (t.record i).pid) _ := h.yields_kill
  obtain ⟨r, e, hr⟩ := hyields.exists_ok trivial
  cases r with
  | error why =>
    have hfind := h.sound.find_pid hn hstage (mem_searched.2 hstage)
    cases hfind.symm.trans (find_of_kill_eq_error e)
  | ok t' =>
    obtain ⟨h', j, hpid, -, hview⟩ := hr
    obtain rfl := eq_of_pid hn hpid.symm (mt (hn.pid_eq_nobody_iff i).1 hstage)
    refine ⟨t', fun clock => ?_, h', hview⟩
    rw [Request.start, e]
    rfl

/-- There is a process to kill, or the kill is refused, after any calm change too. -/
theorem exists_or_answers_kill (t : Table P) (pid : Pid) :
    (∃ i, (t.record i).pid = pid ∧ (t.record i).stage.phase ≠ .free) ∨
      ∀ t' : Table P, t'.Sound → t.view.Calm t'.view →
        (Request.kill pid).Answers t' (.error .notFound) t' := by
  by_cases hex : ∃ i, (t.record i).pid = pid ∧ (t.record i).stage.phase ≠ .free
  · exact .inl hex
  · refine .inr fun t' h' hcalm clock => ?_
    have hfind : t'.find pid searched = .ok none := by
      refine h'.find_eq_none fun i hpid hmem => hex ⟨i, (hcalm.2 i).pid.symm.trans hpid, ?_⟩
      intro hfree
      exact mem_searched.1 hmem (Stage.phase_eq_free.1 ((hcalm.2 i).phase.trans hfree))
    rw [Request.start, kill, hfind]
    rfl

theorem mem_active {s : Stage} :
    s ∈ [Stage.running, .runnable, .sleeping] ↔ s.phase = .alive := by
  cases s <;> decide

/-- A live process is put on a level. -/
theorem Orderly.answers_setPriority (h : t.Orderly) (hn : t.view.Numbered)
    (hle : priority ≤ P.maxPriority) (hi : (t.record i).stage.phase = .alive) :
    ∃ t', (Request.setPriority (t.record i).pid priority).Answers t (.ok ()) t' ∧ t'.Orderly ∧
      t'.view = t.view.assign P i priority := by
  have hstage : (t.record i).stage ≠ .unused := fun hs => by simp [hs, Stage.phase] at hi
  have hyields : Yields True (t.setPriority (t.record i).pid priority) _ := h.yields_setPriority
  obtain ⟨r, e, hr⟩ := hyields.exists_ok trivial
  cases r with
  | error why =>
    have hfind := h.sound.find_pid hn hstage (mem_active.2 hi)
    cases hfind.symm.trans (find_of_setPriority_eq_error hle e)
  | ok t' =>
    obtain ⟨h', -, j, hpid, -, hview⟩ := hr
    obtain rfl := eq_of_pid hn hpid.symm (mt (hn.pid_eq_nobody_iff i).1 hstage)
    refine ⟨t', fun clock => ?_, h', hview⟩
    rw [Request.start, e]
    rfl

/-- There is a process to put on the level, or the request is refused, after any calm change too. -/
theorem exists_or_answers_setPriority (t : Table P) (pid : Pid) (priority : Nat) :
    (priority ≤ P.maxPriority ∧ ∃ i, (t.record i).pid = pid ∧ (t.record i).stage.phase = .alive) ∨
      ∃ why ∈ [Refusal.notFound, .invalidPriority], ∀ t' : Table P, t'.Sound →
        t.view.Calm t'.view → (Request.setPriority pid priority).Answers t' (.error why) t' := by
  by_cases hle : priority ≤ P.maxPriority
  · by_cases hex : ∃ i, (t.record i).pid = pid ∧ (t.record i).stage.phase = .alive
    · exact .inl ⟨hle, hex⟩
    · refine .inr ⟨.notFound, List.mem_cons_self, fun t' h' hcalm clock => ?_⟩
      have hfind : t'.find pid [.running, .runnable, .sleeping] = .ok none := by
        refine h'.find_eq_none fun i hpid hmem => hex ⟨i, (hcalm.2 i).pid.symm.trans hpid, ?_⟩
        exact (hcalm.2 i).phase.symm.trans (mem_active.1 hmem)
      rw [Request.start, setPriority, if_neg (Nat.not_lt.2 hle), hfind]
      rfl
  · refine .inr ⟨.invalidPriority, by simp, fun t' _ _ clock => ?_⟩
    rw [Request.start, setPriority, if_pos (Nat.lt_of_not_le hle)]
    rfl

/-- A kill and a change of priority have the same answers in both orders, and come to the same
table. -/
theorem Orderly.exists_answers_kill_setPriority (h : t.Orderly) (hn : t.view.Numbered) (pid : Pid)
    (priority : Nat) : ∃ (killed assigned : Except Refusal Unit) (t₁ t₂ t₃ : Table P),
      ((Request.kill pid).Answers t killed t₁ ∧
        (Request.setPriority pid priority).Answers t₁ assigned t₃) ∧
      ((Request.setPriority pid priority).Answers t assigned t₂ ∧
        (Request.kill pid).Answers t₂ killed t₃) ∧
      killed ∈ [.ok (), .error .notFound] ∧
      assigned ∈ [.ok (), .error .notFound, .error .invalidPriority] := by
  rcases t.exists_or_answers_kill pid with ⟨i, rfl, hi⟩ | hkill
  · obtain ⟨t₁, kill₁, h₁, hview₁⟩ := h.answers_kill hn hi
    have hcalm₁ : t.view.Calm t₁.view := hview₁ ▸ View.calm_kill
    rcases t.exists_or_answers_setPriority (t.record i).pid priority with
      ⟨hle, j, hpid, hj⟩ | ⟨why, hwhy, hset⟩
    · have hstage : (t.record i).stage ≠ .unused := mt Stage.phase_eq_free.2 hi
      obtain rfl := eq_of_pid hn hpid.symm (mt (hn.pid_eq_nobody_iff i).1 hstage)
      obtain ⟨t₂, set₂, h₂, hview₂⟩ := h.answers_setPriority hn hle hj
      have hcalm₂ : t.view.Calm t₂.view := hview₂ ▸ View.calm_assign
      have hn₁ : t₁.view.Numbered :=
        hview₁ ▸ Act.numbered_apply (P := P) (a := .kill i) hn hstage
      have hn₂ : t₂.view.Numbered := hview₂ ▸
        Act.numbered_apply (P := P) (a := .assign i priority) hn (Stage.phase_eq_alive.1 hj)
      -- each request finds the process again after the other
      obtain ⟨t₃, set₃, h₃, hview₃⟩ :=
        h₁.answers_setPriority hn₁ hle ((hcalm₁.2 i).phase.trans hj)
      obtain ⟨t₄, kill₄, h₄, hview₄⟩ :=
        h₂.answers_kill hn₂ (fun hfree => hi ((hcalm₂.2 i).phase.symm.trans hfree))
      rw [show (t₁.record i).pid = (t.record i).pid from (hcalm₁.2 i).pid] at set₃
      rw [show (t₂.record i).pid = (t.record i).pid from (hcalm₂.2 i).pid] at kill₄
      have hloose : ∀ place, i ∉ (t.view.drop i).queue place := fun place hmem =>
        (((h.sound.valid.drop (h.sound.nodup_queue _)).mem_iff place i).1 hmem).2.2 rfl
      obtain rfl : t₄ = t₃ := h₃.sound.eq_of_view_eq h₄.sound (by
        rw [hview₄, hview₂, hview₃, hview₁, View.assign_kill hloose])
      exact ⟨_, _, t₁, t₂, t₄, ⟨kill₁, set₃⟩, ⟨set₂, kill₄⟩, by simp, by simp⟩
    · refine ⟨_, .error why, t₁, t, t₁, ⟨kill₁, hset t₁ h₁.sound hcalm₁⟩,
        ⟨hset t h.sound (.refl _), kill₁⟩, by simp, ?_⟩
      exact List.mem_cons_of_mem _ (List.mem_map_of_mem hwhy)
  · rcases t.exists_or_answers_setPriority pid priority with ⟨hle, j, rfl, hj⟩ | ⟨why, hwhy, hset⟩
    · obtain ⟨t₂, set₂, h₂, hview₂⟩ := h.answers_setPriority hn hle hj
      have hcalm₂ : t.view.Calm t₂.view := hview₂ ▸ View.calm_assign
      exact ⟨_, _, t, t₂, t₂, ⟨hkill t h.sound (.refl _), set₂⟩,
        ⟨set₂, hkill t₂ h₂.sound hcalm₂⟩, by simp, by simp⟩
    · refine ⟨_, .error why, t, t, t, ⟨hkill t h.sound (.refl _), hset t h.sound (.refl _)⟩,
        ⟨hset t h.sound (.refl _), hkill t h.sound (.refl _)⟩, by simp, ?_⟩
      exact List.mem_cons_of_mem _ (List.mem_map_of_mem hwhy)

end Table

/-! ### Machines -/

namespace Machine

variable {P : Params} {m : Machine P} {steps : List (Step P)} {t : Table P} {now : Nat}

/-- **To kill a process and to set its priority commute.**  In every state that a run comes to, for
every pid and priority, the two requests are answered, each in the same way in both orders, and the
states after them are the same, the table with all its links included. -/
theorem kill_setPriority_of_history (hcreate : Table.create P now = .ok (.ok t))
    (hrun : History { table := t } steps m) (pid : Pid) (priority : Nat) :
    ∃ (killed assigned : Except Refusal Unit) (m₁ m₂ m₃ : Machine P),
      (∀ clock, m.perform (.start (.kill pid) clock) = .ok (.returned (.answered killed), m₁)) ∧
      (∀ clock, m₁.perform (.start (.setPriority pid priority) clock) =
        .ok (.returned (.answered assigned), m₃)) ∧
      (∀ clock, m.perform (.start (.setPriority pid priority) clock) =
        .ok (.returned (.answered assigned), m₂)) ∧
      (∀ clock, m₂.perform (.start (.kill pid) clock) = .ok (.returned (.answered killed), m₃)) ∧
      killed ∈ [.ok (), .error .notFound] ∧
      assigned ∈ [.ok (), .error .notFound, .error .invalidPriority] := by
  obtain ⟨ht, hview⟩ := Table.orderly_of_create hcreate
  have hn := hrun.numbered ht (hview ▸ numbered_fresh)
  obtain ⟨killed, assigned, t₁, t₂, t₃, ⟨kill₁, set₁⟩, ⟨set₂, kill₂⟩, hkilled, hassigned⟩ :=
    (hrun.orderly ht).exists_answers_kill_setPriority hn pid priority
  refine ⟨killed, assigned, { m with table := t₁ }, { m with table := t₂ }, { m with table := t₃ },
    fun clock => ?_, fun clock => ?_, fun clock => ?_, fun clock => ?_, hkilled, hassigned⟩
  · exact bind_eq_ok.2 ⟨_, kill₁ clock, rfl⟩
  · exact bind_eq_ok.2 ⟨_, set₁ clock, rfl⟩
  · exact bind_eq_ok.2 ⟨_, set₂ clock, rfl⟩
  · exact bind_eq_ok.2 ⟨_, kill₂ clock, rfl⟩

/-- The root process sleeps on the upper level.  Killed and put on the lower level, in one order or
the other, it waits there at last. -/
theorem kill_setPriority_of_sleeping : ∃ (t : Table ⟨1, 1, 1, 1, 1, true⟩) (steps : List (Step _))
    (m m₁ m₂ m₃ : Machine _), Table.create _ 0 = .ok (.ok t) ∧ History { table := t } steps m ∧
      (m.table.record 0).stage = .sleeping ∧ (m.table.record 0).priority = 1 ∧
      m.perform (.start (.kill 1) 0) = .ok (.returned (.answered (.ok ())), m₁) ∧
      m₁.perform (.start (.setPriority 1 0) 0) = .ok (.returned (.answered (.ok ())), m₃) ∧
      m.perform (.start (.setPriority 1 0) 0) = .ok (.returned (.answered (.ok ())), m₂) ∧
      m₂.perform (.start (.kill 1) 0) = .ok (.returned (.answered (.ok ())), m₃) ∧
      m₁.table.queue (.ready 1) = [0] ∧ m₃.table.queue (.ready 1) = [] ∧
      m₃.table.queue (.ready 0) = [0] := by
  obtain ⟨t, steps, m, hcreate, hrun, hstage, hpriority, m₁, m₃, hkill, hset, hupper, hnone,
      hlower⟩ : ∃ (t : Table ⟨1, 1, 1, 1, 1, true⟩) (steps : List (Step _)) (m : Machine _),
        Table.create _ 0 = .ok (.ok t) ∧ History { table := t } steps m ∧
        (m.table.record 0).stage = .sleeping ∧ (m.table.record 0).priority = 1 ∧ ∃ m₁ m₃,
        m.perform (.start (.kill 1) 0) = .ok (.returned (.answered (.ok ())), m₁) ∧
        m₁.perform (.start (.setPriority 1 0) 0) = .ok (.returned (.answered (.ok ())), m₃) ∧
        m₁.table.queue (.ready 1) = [0] ∧ m₃.table.queue (.ready 1) = [] ∧
        m₃.table.queue (.ready 0) = [0] :=
    ⟨_, _, _, rfl,
      History.nil.event (e := .start (.boot "" []) 0) trivial rfl
        |>.event (e := .answer ⟨none, .allocating 0 (.root "" [])⟩ (some ⟨0⟩) 0)
          List.mem_cons_self rfl
        |>.event (e := .answer ⟨none, .mapping 0 "" []⟩ (some ⟨0⟩) 0) List.mem_cons_self rfl
        |>.event (e := .start (.dispatch 0) 0) trivial rfl
        |>.event (e := .start (.sleep 0 .ticks) 0) trivial rfl,
      rfl, rfl, _, _, rfl, rfl, rfl, rfl, rfl⟩
  obtain ⟨killed, assigned, m₁', m₂, m₃', kill₁, set₁, set₂, kill₂, -, -⟩ :=
    kill_setPriority_of_history hcreate hrun 1 0
  cases hkill.symm.trans (kill₁ 0)
  cases hset.symm.trans (set₁ 0)
  exact ⟨t, steps, m, m₁, m₂, m₃, hcreate, hrun, hstage, hpriority, hkill, hset, set₂ 0, kill₂ 0,
    hupper, hnone, hlower⟩

end Machine

end FeedbackQueue
