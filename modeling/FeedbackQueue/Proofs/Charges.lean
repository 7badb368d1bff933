import FeedbackQueue.Proofs.Histories

/-!
# What a stint costs

The ticks of a stint are taken off the budget, and a budget that is used up costs one level and is
refilled.  `Process.debit` is this rule over the integers.  `Process.charge` reads the length of
the stint as a signed word, so it follows the rule up to half of the range of the clock.  A longer
stint reads as a negative number: it is not charged, its budget grows, and the process keeps its
level.

## Main definitions

* `Process.debit` : the rule over the integers.
* `Process.gift` : what becomes of a record whose stint reads as a negative number.

## Main statements

* `Table.charge_stint` : which of the two a table makes of a stint, over the full range of words.
* `Machine.charge_ne_debit` : a run that ends in a stint which is not charged by the rule.
-/

namespace FeedbackQueue

/-- A word from `sign64` on reads as a negative number. -/
theorem signed64_of_le {n : Nat} (h : sign64 ≤ n) (hn : n < word64) :
    signed64 n = (n : Int) - word64 := by
  simp only [signed64, word64, sign64, Int.bmod] at *
  omega

namespace Process

variable {p : Process} {refill : Int} {now : Nat}

/-- The ticks of a stint that ends at `now`. -/
def stint (p : Process) (now : Nat) : Nat := now - p.dispatchedAt

/-- The record after a stint of `used` ticks, over the integers. -/
def debit (p : Process) (refill : Int) (used : Nat) : Process :=
  if 0 < p.budget - used then { p with budget := p.budget - used }
  else { p with priority := p.priority - 1, budget := refill }

/-- The record with what `used` ticks lack to a full word added to the budget, as far as that
fits. -/
def gift (p : Process) (used : Nat) : Process :=
  { p with budget := min (p.budget + (word64 - used)) (sign64 - 1) }

/-- A budget does not grow except by a refill, and it stays between nothing and a full one. -/
theorem debit_budget {used : Nat} (hpos : 0 < p.budget) (hle : p.budget ≤ refill) :
    0 < (p.debit refill used).budget ∧ (p.debit refill used).budget ≤ refill ∧
      ((p.debit refill used).budget ≤ p.budget ∨ (p.debit refill used).budget = refill) := by
  unfold debit
  split
  · have hless : p.budget - used ≤ p.budget := Int.sub_le_self _ (Int.natCast_nonneg _)
    exact ⟨‹_›, Int.le_trans hless hle, .inl hless⟩
  · exact ⟨Int.lt_of_lt_of_le hpos hle, Int.le_refl _, .inr rfl⟩

theorem budget_le_gift {used : Nat} (hused : used < word64) (hbudget : p.budget < sign64) :
    p.budget ≤ (p.gift used).budget := by
  simp only [gift]
  omega

/-- A stint below half of the range is charged by the rule. -/
theorem charge_eq_debit (hpos : 0 < p.budget) (hbudget : p.budget < sign64)
    (hshort : p.stint now < sign64) : p.charge refill now = p.debit refill (p.stint now) := by
  have hsigned : signed64 (now - p.dispatchedAt) = p.stint now := signed64_of_lt hshort
  have hclamp : clamp64 (p.budget - p.stint now) = p.budget - p.stint now :=
    clamp64_of_fits (by omega) (by omega)
  unfold charge debit
  rw [hsigned, hclamp]
  by_cases hleft : 0 < p.budget - p.stint now
  · rw [if_pos hleft, if_neg (Int.not_le.2 hleft)]
  · rw [if_neg hleft, if_pos (Int.not_lt.1 hleft)]

/-- A stint from half of the range on is not charged. -/
theorem charge_eq_gift (hpos : 0 < p.budget) (hlong : sign64 ≤ p.stint now)
    (hnow : now < word64) : p.charge refill now = p.gift (p.stint now) := by
  have hused : p.stint now < word64 := Nat.lt_of_le_of_lt (Nat.sub_le _ _) hnow
  have hsigned : signed64 (now - p.dispatchedAt) = (p.stint now : Int) - word64 :=
    signed64_of_le hlong hused
  have hclamp : clamp64 (p.budget - ((p.stint now : Int) - word64)) =
      (p.gift (p.stint now)).budget := by
    simp only [clamp64, gift, sign64, word64] at *
    omega
  have hleft : ¬ (p.gift (p.stint now)).budget ≤ 0 := by
    simp only [gift, sign64, word64] at *
    omega
  unfold charge
  rw [hsigned, hclamp]
  exact if_neg hleft

end Process

namespace Table

variable {P : Params} {t : Table P} {i : Slot}

/-- **What a stint costs**, for every reading of the clock and every record with a budget between
nothing and a full one.  Nothing but the record of the slot changes.  Below half of the range the
record is charged by the rule, and the budget stays in its bounds; from there on the priority stays
and the budget does not shrink. -/
theorem charge_stint (now : Nat) (hi : i < P.capacity) (hnow : now < word64)
    (hfull : P.budget < sign64) (hpos : 0 < t.procs[i].budget)
    (hle : t.procs[i].budget ≤ P.budget) :
    ∃ q, t.charge i now = .ok { t with procs := t.procs.set i q } ∧
      (t.procs[i].stint now < sign64 →
        q = t.procs[i].debit P.budget (t.procs[i].stint now) ∧ 0 < q.budget ∧
          q.budget ≤ P.budget ∧ (q.budget ≤ t.procs[i].budget ∨ q.budget = P.budget)) ∧
      (sign64 ≤ t.procs[i].stint now →
        q = t.procs[i].gift (t.procs[i].stint now) ∧ t.procs[i].budget ≤ q.budget) := by
  have hbudget : t.procs[i].budget < sign64 := Int.lt_of_le_of_lt hle hfull
  refine ⟨t.procs[i].charge P.budget now, dif_pos hi, fun hshort => ?_, fun hlong => ?_⟩
  · rw [Process.charge_eq_debit hpos hbudget hshort]
    exact ⟨rfl, Process.debit_budget hpos hle⟩
  · rw [Process.charge_eq_gift hpos hlong hnow]
    exact ⟨rfl, Process.budget_le_gift (Nat.lt_of_le_of_lt (Nat.sub_le _ _) hnow) hbudget⟩

theorem charge_stint_of_full : ∃ t t' : Table ⟨1, 1, 300, 3000, 1, true⟩,
    t.procs[0].budget = 300 ∧ t.charge 0 100 = .ok t' ∧ t'.procs[0].budget = 200 := by
  obtain ⟨t, hbudget, hclock⟩ : ∃ t : Table ⟨1, 1, 300, 3000, 1, true⟩,
      t.procs[0].budget = 300 ∧ t.procs[0].dispatchedAt = 0 :=
    ⟨{ procs := #v[{ stage := .embryo, priority := 1, budget := 300 }], links := #v[none]
       unused := {}, embryo := { head := some 0, tail := some 0, len := 1 }, sleeping := {}
       running := {}, zombie := {}, ready := #v[{}, {}], markers := #v[none], nextPid := 2
       sweepAt := 3000, root := none }, rfl, rfl⟩
  obtain ⟨q, hcharge, hshort, -⟩ := charge_stint (t := t) (i := 0) 100 (by decide) (by decide)
    (by decide) (by rw [hbudget]; decide) (by rw [hbudget])
  have hstint : t.procs[0].stint 100 = 100 := by rw [Process.stint, hclock]
  obtain ⟨rfl, -⟩ := hshort (by rw [hstint]; decide)
  refine ⟨t, _, hbudget, hcharge, ?_⟩
  simp [Process.debit, hstint, hbudget]

end Table

namespace Machine

/-- The first run of the root process lasts for half of the range of the clock: the rule takes a
level from it and fills its budget, but it keeps its level, with the largest budget of a word. -/
theorem charge_ne_debit : ∃ (t : Table ⟨1, 1, 300, 3000, 1, true⟩) (m : Machine _),
    Table.create _ 0 = .ok (.ok t) ∧ Reaches (fun _ _ => True) { table := t } m ∧
      m.table.procs[0].budget = 300 ∧ m.table.procs[0].stint sign64 = sign64 ∧
        (m.table.procs[0].debit 300 sign64).priority = 0 ∧
        (m.table.procs[0].debit 300 sign64).budget = 300 ∧
        ∃ t', m.table.charge 0 sign64 = .ok t' ∧ t'.procs[0].priority = 1 ∧
          t'.procs[0].budget = sign64 - 1 := by
  obtain ⟨t, hcreate, hleads⟩ : ∃ t : Table ⟨1, 1, 300, 3000, 1, true⟩,
      Table.create _ 0 = .ok (.ok t) ∧ Leads (fun _ _ => True) (fun m =>
        m.table.procs[0].budget = 300 ∧ m.table.procs[0].stint sign64 = sign64 ∧
          (m.table.procs[0].debit 300 sign64).priority = 0 ∧
          (m.table.procs[0].debit 300 sign64).budget = 300 ∧
          ∃ t', m.table.charge 0 sign64 = .ok t' ∧ t'.procs[0].priority = 1 ∧
            t'.procs[0].budget = sign64 - 1)
        [.start (.boot "init" []) 0, .answer ⟨none, .allocating 0 (.root "init" [])⟩ (some ⟨1⟩) 0,
          .answer ⟨none, .mapping 0 "init" []⟩ (some ⟨2⟩) 0, .start (.dispatch 0) 0]
        { table := t } :=
    ⟨_, rfl, trivial, trivial, _, _, rfl, List.mem_cons_self, trivial, _, _, rfl,
      List.mem_cons_self, trivial, _, _, rfl, trivial, trivial, _, _, rfl, rfl, rfl, rfl, rfl,
      _, rfl, rfl, rfl⟩
  obtain ⟨m, hrun, hrule⟩ := hleads.exists_reaches
  exact ⟨t, m, hcreate, hrun, hrule⟩

end Machine

end FeedbackQueue
