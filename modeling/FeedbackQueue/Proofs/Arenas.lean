import FeedbackQueue.Proofs.Chain
import FeedbackQueue.Proofs.Yields
import Mathlib.Logic.Function.Basic

/-!
# Chains that share links

An `Arena` holds several chains over one vector of links.  A chain knows only its own ends, and
every operation rewrites links that all chains read.  Still the chains are independent sequences of
slots, as long as nobody pushes a slot that is on a chain already: what an operation answers is
what the same operation on the sequence of its chain answers (`Operation.onList`), and the
sequences of the others stay.

## Main definitions

* `Chain.Operation`, `Chain.perform` : what can be asked of a chain, and how it answers.
* `Chain.Operation.onList` : the same on a sequence.
* `Arena`, `Arena.run` : operations on several chains, one after the other.
* `Arena.Holds` : the chains are the given sequences, and slots on none have no link.
* `Arena.Obeys` : so they are, and so they answer whatever is asked next.

## Main statements

* `Chain.Holds.perform_eq_ok` : one operation on one chain.
* `Arena.Holds.perform_eq_ok` : the step, for all chains together.
* `Arena.run_of_proper` : any operations, from an arena with empty chains.
-/

namespace FeedbackQueue

/-- The slot before the one that is sought is another one. -/
theorem Links.ne_of_seek {n : Nat} {links : Links n} {i : Slot} {k : Nat}
    {before start found : Option Slot} (hbefore : before ≠ some i)
    (e : links.seek i k before start = .ok (some found)) : found ≠ some i := by
  induction k generalizing before start with
  | zero => cases e
  | succ k ih =>
    cases start with
    | none => cases e
    | some node =>
      unfold seek at e
      split at e
      · cases e
        exact hbefore
      · obtain ⟨follower, -, e⟩ := bind_eq_ok.1 e
        exact ih (fun h => absurd (Option.some.inj h) ‹_›) e

namespace Chain

/-- What can be asked of a chain. -/
inductive Operation where
  /-- Append a slot. -/
  | push (i : Slot)
  /-- Take the first slot. -/
  | pop
  /-- Unlink a slot. -/
  | remove (i : Slot)
  /-- Say whether a slot is on the chain. -/
  | contains (i : Slot)
  /-- List the slots. -/
  | walk
  /-- Say how many slots there are. -/
  | len
  /-- Say whether there is none. -/
  | isEmpty
  /-- Name the first slot. -/
  | front
  /-- Name the last slot. -/
  | back
  deriving DecidableEq, Repr

/-- What a chain answers. -/
inductive Answer where
  /-- It is done. -/
  | done
  /-- The slot is not on the chain. -/
  | absent (i : Slot)
  /-- A slot, if there is one. -/
  | slot (i : Option Slot)
  /-- Slots. -/
  | slots (xs : List Slot)
  /-- A number. -/
  | number (n : Nat)
  /-- Yes or no. -/
  | flag (b : Bool)
  deriving DecidableEq, Repr

/-- Ask something of a chain: the answer, the chain and the links. -/
def perform {n : Nat} (c : Chain) (links : Links n) :
    Operation → Except Fault (Answer × Chain × Links n)
  | .push i => do
    let (c, links) ← c.push links i
    return (.done, c, links)
  | .pop => do
    match ← c.pop links with
    | some (i, c, links) => return (.slot (some i), c, links)
    | none => return (.slot none, c, links)
  | .remove i => do
    match ← c.remove links i with
    | some (c, links) => return (.done, c, links)
    | none => return (.absent i, c, links)
  | .contains i => return (.flag (c.contains links i), c, links)
  | .walk => return (.slots (c.walk links), c, links)
  | .len => return (.number c.len, c, links)
  | .isEmpty => return (.flag c.isEmpty, c, links)
  | .front => return (.slot c.head, c, links)
  | .back => return (.slot c.tail, c, links)

namespace Operation

/-- The same asked of a sequence: the answer and the sequence. -/
def onList (xs : List Slot) : Operation → Answer × List Slot
  | push i => (.done, xs ++ [i])
  | pop => (.slot xs.head?, xs.tail)
  | remove i => if i ∈ xs then (.done, xs.erase i) else (.absent i, xs)
  | contains i => (.flag (decide (i ∈ xs)), xs)
  | walk => (.slots xs, xs)
  | len => (.number xs.length, xs)
  | isEmpty => (.flag xs.isEmpty, xs)
  | front => (.slot xs.head?, xs)
  | back => (.slot xs.getLast?, xs)

/-- A slot that is pushed exists, and is on none of the sequences. -/
def Fits {k : Nat} (n : Nat) (xss : Fin k → List Slot) : Operation → Prop
  | push i => i < n ∧ ∀ l, i ∉ xss l
  | _ => True

/-- What an operation may do to the links: those of slots that are neither on the sequence nor
pushed stay, and a slot that leaves the sequence has none afterwards. -/
structure Relinks {n : Nat} (op : Operation) (xs : List Slot) (links links' : Links n) : Prop where
  /-- Slots elsewhere keep their links. -/
  other : ∀ j, j ∉ xs → op ≠ push j → links'[j]? = links[j]?
  /-- Slots that leave have no link. -/
  cleared : ∀ j ∈ xs, j ∉ (op.onList xs).2 → links'[j]? = some none

theorem Relinks.refl {n : Nat} {op : Operation} {xs : List Slot} {links : Links n}
    (h : (op.onList xs).2 = xs) : op.Relinks xs links links where
  other _ _ _ := rfl
  cleared _ hj hnot := absurd (h.symm ▸ hj) hnot

/-- Nobody comes into a sequence but by being pushed. -/
theorem mem_onList {op : Operation} {xs : List Slot} {i : Slot} (h : i ∈ (op.onList xs).2) :
    i ∈ xs ∨ op = push i := by
  cases op with
  | push j =>
    rcases List.mem_append.1 h with h | h
    · exact .inl h
    · exact .inr (by rw [List.mem_singleton.1 h])
  | pop => exact .inl (List.mem_of_mem_tail h)
  | remove j =>
    refine .inl ?_
    simp only [onList] at h
    split at h
    · exact List.mem_of_mem_erase h
    · exact h
  | _ => exact .inl h

end Operation

/-! ### One chain -/

section Single

variable {n : Nat} {links links' : Links n} {c c' : Chain} {xs : List Slot} {i : Slot}

/-- A slot that is popped has no link left. -/
theorem link_of_pop (e : c.pop links = .ok (some (i, c', links'))) : links'[i]? = some none := by
  unfold pop at e
  cases hhead : c.head with
  | none =>
    rw [hhead] at e
    cases e
  | some j =>
    rw [hhead] at e
    obtain ⟨_, -, e⟩ := bind_eq_ok.1 e
    obtain ⟨_, hassign, e⟩ := bind_eq_ok.1 e
    obtain ⟨_, -, e⟩ := bind_eq_ok.1 e
    cases e
    obtain ⟨hj, rfl⟩ := Links.assign_eq_ok.1 hassign
    exact Vector.getElem?_set_self hj

/-- A slot that is removed has no link left. -/
theorem link_of_remove (e : c.remove links i = .ok (some (c', links'))) :
    links'[i]? = some none := by
  obtain ⟨found, hseek, e⟩ := bind_eq_ok.1 e
  cases found with
  | none => cases e
  | some before =>
    obtain ⟨_, -, e⟩ := bind_eq_ok.1 e
    obtain ⟨_, hassign, e⟩ := bind_eq_ok.1 e
    obtain ⟨hi, rfl⟩ := Links.assign_eq_ok.1 hassign
    cases before with
    | none =>
      obtain ⟨_, -, e⟩ := bind_eq_ok.1 e
      cases e
      exact Vector.getElem?_set_self hi
    | some j =>
      obtain ⟨_, hassign', e⟩ := bind_eq_ok.1 e
      obtain ⟨_, -, e⟩ := bind_eq_ok.1 e
      cases e
      obtain ⟨hj, rfl⟩ := Links.assign_eq_ok.1 hassign'
      have hne : j ≠ i := by
        rintro rfl
        refine Links.ne_of_seek ?_ hseek rfl
        nofun
      rw [Vector.getElem?_set_ne hj hne, Vector.getElem?_set_self hi]

/-- **A chain answers as its sequence does**, and holds what the sequence becomes. -/
theorem Holds.perform_eq_ok (h : c.Holds links xs) {op : Operation}
    (hpush : ∀ i, op = .push i → i < n ∧ i ∉ xs) :
    ∃ c' links', c.perform links op = .ok ((op.onList xs).1, c', links') ∧
      c'.Holds links' (op.onList xs).2 ∧ op.Relinks xs links links' := by
  -- most operations only read
  have hreads : op.onList xs = ((op.onList xs).1, xs) →
      c.perform links op = .ok ((op.onList xs).1, c, links) →
      ∃ c' links', c.perform links op = .ok ((op.onList xs).1, c', links') ∧
        c'.Holds links' (op.onList xs).2 ∧ op.Relinks xs links links' := by
    intro hxs e
    have hself : (op.onList xs).2 = xs := congrArg Prod.snd hxs
    exact ⟨c, links, e, hself.symm ▸ h, .refl hself⟩
  cases op with
  | push i =>
    obtain ⟨hi, hmem⟩ := hpush i rfl
    obtain ⟨c', links', e, hc', same⟩ := h.push hi hmem
    refine ⟨c', links', ?_, hc', fun j hj hne => same j hj ?_, fun j hj hnot => ?_⟩
    · rw [perform, e]
      rfl
    · rintro rfl
      exact hne rfl
    · exact absurd (List.mem_append_left _ hj) hnot
  | pop =>
    cases xs with
    | nil =>
      refine hreads rfl ?_
      rw [perform, h.pop_nil]
      rfl
    | cons i xs =>
      obtain ⟨c', links', e, hc', same⟩ := h.pop
      refine ⟨c', links', ?_, hc', fun j hj _ => same j (List.ne_of_not_mem_cons hj), ?_⟩
      · rw [perform, e]
        rfl
      · intro j hj hnot
        rcases List.mem_cons.1 hj with rfl | hj
        · exact link_of_pop e
        · exact absurd hj hnot
  | remove i =>
    by_cases hmem : i ∈ xs
    · obtain ⟨c', links', e, hc', same⟩ := h.remove hmem
      have honList : (Operation.remove i).onList xs = (.done, xs.erase i) := if_pos hmem
      refine ⟨c', links', ?_, honList ▸ hc', fun j hj _ => same j hj, fun j hj hnot => ?_⟩
      · rw [perform, e, honList]
        rfl
      · -- nobody but the slot itself leaves the sequence
        by_cases hji : j = i
        · rw [hji]
          exact link_of_remove e
        · rw [honList] at hnot
          exact absurd ((List.mem_erase_of_ne hji).2 hj) hnot
    · have honList : (Operation.remove i).onList xs = (.absent i, xs) := if_neg hmem
      refine hreads (by rw [honList]) ?_
      rw [perform, h.remove_of_not_mem hmem, honList]
      rfl
  | contains i =>
    refine hreads rfl ?_
    simp [perform, Operation.onList, contains, h.walk_eq]
    rfl
  | walk =>
    refine hreads rfl ?_
    rw [perform, Operation.onList, h.walk_eq]
    rfl
  | len =>
    refine hreads rfl ?_
    rw [perform, Operation.onList, h.len_eq]
    rfl
  | isEmpty =>
    refine hreads rfl ?_
    rw [perform, Operation.onList, isEmpty, h.head_eq]
    cases xs <;> rfl
  | front =>
    refine hreads rfl ?_
    rw [perform, Operation.onList, h.head_eq]
    rfl
  | back =>
    refine hreads rfl ?_
    rw [perform, Operation.onList, h.tail_eq]
    rfl

end Single

end Chain

/-! ### Several chains -/

/-- Chains over one vector of links. -/
structure Arena (n k : Nat) where
  /-- The links between slots. -/
  links : Links n
  /-- The chains. -/
  chains : Vector Chain k
  deriving DecidableEq

namespace Arena

open Chain (Operation Answer)

variable {n k : Nat} {a a' : Arena n k} {xss : Fin k → List Slot} {l : Fin k} {op : Operation}

/-- Empty chains, and no links. -/
def fresh (n k : Nat) : Arena n k where
  links := Vector.replicate n none
  chains := Vector.replicate k {}

/-- Ask something of a chain. -/
def perform (a : Arena n k) (l : Fin k) (op : Operation) : Except Fault (Answer × Arena n k) := do
  let (answer, c, links) ← a.chains[l].perform a.links op
  return (answer, { links, chains := a.chains.set l c })

/-- Ask one thing after the other, each of the chain that is named. -/
def run (a : Arena n k) : List (Fin k × Operation) → Except Fault (List Answer × Arena n k)
  | [] => return ([], a)
  | (l, op) :: ops => do
    let (answer, a) ← a.perform l op
    let (answers, a) ← a.run ops
    return (answer :: answers, a)

/-- The sequences after something has been asked of one of them. -/
def step (xss : Fin k → List Slot) (l : Fin k) (op : Operation) : Fin k → List Slot :=
  Function.update xss l (op.onList (xss l)).2

/-- What sequences answer, and what becomes of them. -/
def runLists (xss : Fin k → List Slot) :
    List (Fin k × Operation) → List Answer × (Fin k → List Slot)
  | [] => ([], xss)
  | (l, op) :: ops =>
    ((op.onList (xss l)).1 :: (runLists (step xss l op) ops).1, (runLists (step xss l op) ops).2)

/-- Every slot that is pushed is on none of the sequences then. -/
def Proper (n : Nat) (xss : Fin k → List Slot) : List (Fin k × Operation) → Prop
  | [] => True
  | (l, op) :: ops => op.Fits n xss ∧ Proper n (step xss l op) ops

/-- The chains are the sequences, which share no slot, and slots on none of them have no link. -/
structure Holds (a : Arena n k) (xss : Fin k → List Slot) : Prop where
  /-- A chain is its sequence. -/
  chain : ∀ l : Fin k, a.chains[l].Holds a.links (xss l)
  /-- A slot is on one sequence only. -/
  disjoint : ∀ l l' i, i ∈ xss l → i ∈ xss l' → l = l'
  /-- A slot on no sequence has no link. -/
  loose : ∀ i, i < n → (∀ l, i ∉ xss l) → a.links[i]? = some none

/-- An arena is known by its sequences. -/
theorem Holds.unique (h : a.Holds xss) (h' : a'.Holds xss) : a = a' := by
  have hchains : a.chains = a'.chains := by
    ext1 l hl
    exact (h.chain ⟨l, hl⟩).unique (h'.chain ⟨l, hl⟩)
  have hlinks : a.links = a'.links := by
    ext1 i hi
    have hget : a.links[i]? = a'.links[i]? := by
      by_cases hmem : ∃ l, i ∈ xss l
      · obtain ⟨l, hl⟩ := hmem
        exact (h.chain l).leads.link_eq (h'.chain l).leads hl
      · have hnone : ∀ l, i ∉ xss l := fun l hl => hmem ⟨l, hl⟩
        rw [h.loose i hi hnone, h'.loose i hi hnone]
    rwa [Vector.getElem?_eq_getElem hi, Vector.getElem?_eq_getElem hi, Option.some.injEq] at hget
  cases a
  cases a'
  rw [Arena.mk.injEq]
  exact ⟨hlinks, hchains⟩

theorem holds_fresh : (fresh n k).Holds fun _ => [] where
  chain l := by
    have hempty : (fresh n k).chains[l] = {} := by simp [fresh]
    rw [hempty]
    exact Chain.holds_empty
  disjoint _ _ _ hi := absurd hi List.not_mem_nil
  loose i hi _ := by simp [fresh, hi]

/-- What is asked of one chain does not touch the others: they keep their ends and lengths, and
their slots keep their links. -/
structure Spares (a a' : Arena n k) (xss : Fin k → List Slot) (l : Fin k) : Prop where
  /-- The other chains are the same. -/
  chain_eq : ∀ l' : Fin k, l' ≠ l → a'.chains[l'] = a.chains[l']
  /-- So are the links of their slots. -/
  link_eq : ∀ l' : Fin k, l' ≠ l → ∀ i ∈ xss l', a'.links[i]? = a.links[i]?

theorem mem_step {l' : Fin k} {i : Slot} (h : i ∈ step xss l op l') :
    i ∈ xss l' ∨ l' = l ∧ op = .push i := by
  unfold step at h
  by_cases hl : l' = l
  · subst hl
    rw [Function.update_self] at h
    exact (Chain.Operation.mem_onList h).imp_right fun hop => ⟨rfl, hop⟩
  · rw [Function.update_of_ne hl] at h
    exact .inl h

/-- **One operation.**  The chain answers as its sequence does, and all chains hold what the
sequences become. -/
theorem Holds.perform_eq_ok (h : a.Holds xss) (hfits : op.Fits n xss) :
    ∃ a', a.perform l op = .ok ((op.onList (xss l)).1, a') ∧ a'.Holds (step xss l op) ∧
      a.Spares a' xss l := by
  have hpush : ∀ i, op = .push i → i < n ∧ ∀ l, i ∉ xss l := by
    rintro i rfl
    exact hfits
  obtain ⟨c, links, e, hc, hlinks⟩ :=
    (h.chain l).perform_eq_ok fun i hi => ⟨(hpush i hi).1, (hpush i hi).2 l⟩
  -- slots of other chains are neither on this one nor pushed
  have hother : ∀ l', l' ≠ l → ∀ i ∈ xss l', links[i]? = a.links[i]? := by
    intro l' hne i hi
    refine hlinks.other i (fun hi' => hne (h.disjoint l' l i hi hi')) ?_
    exact fun hop => (hpush i hop).2 l' hi
  have hself : (a.chains.set l c)[l] = c := by simp
  have hrest : ∀ l' : Fin k, l' ≠ l → (a.chains.set l c)[l'] = a.chains[l'] := by
    intro l' hne
    exact Vector.getElem_set_ne _ _ fun heq => hne (Fin.ext heq.symm)
  refine ⟨{ links, chains := a.chains.set l c }, ?_, ⟨fun l' => ?_, fun l₁ l₂ i h₁ h₂ => ?_,
    fun i hi hnone => ?_⟩, ⟨hrest, hother⟩⟩
  · rw [perform, e]
    rfl
  · by_cases hl : l' = l
    · subst hl
      simpa [step] using hc
    · rw [step, Function.update_of_ne hl]
      change ((a.chains.set l c)[l']).Holds links (xss l')
      rw [hrest l' hl]
      exact (h.chain l').congr (hother l' hl)
  · rcases mem_step h₁ with hold₁ | ⟨hl₁, hop⟩
    · rcases mem_step h₂ with hold₂ | ⟨-, hop⟩
      · exact h.disjoint l₁ l₂ i hold₁ hold₂
      · exact absurd hold₁ ((hpush i hop).2 l₁)
    · rcases mem_step h₂ with hold₂ | ⟨hl₂, -⟩
      · exact absurd hold₂ ((hpush i hop).2 l₂)
      · rw [hl₁, hl₂]
  · have hleft : i ∉ (op.onList (xss l)).2 := by
      simpa [step] using hnone l
    by_cases hmem : i ∈ xss l
    · exact hlinks.cleared i hmem hleft
    · -- the slot has been on no chain, and is not pushed
      have hop : op ≠ .push i := by
        rintro rfl
        exact hleft (List.mem_append_right _ List.mem_cons_self)
      have hbefore : ∀ l', i ∉ xss l' := by
        intro l'
        by_cases hl : l' = l
        · rwa [hl]
        · simpa [step, Function.update_of_ne hl] using hnone l'
      exact (hlinks.other i hmem hop).trans (h.loose i hi hbefore)

/-- Any operations, one after the other. -/
theorem Holds.run_eq_ok {ops : List (Fin k × Operation)} (h : a.Holds xss)
    (hproper : Proper n xss ops) :
    ∃ a', a.run ops = .ok ((runLists xss ops).1, a') ∧ a'.Holds (runLists xss ops).2 := by
  induction ops generalizing a xss with
  | nil => exact ⟨a, rfl, h⟩
  | cons entry ops ih =>
    obtain ⟨l, op⟩ := entry
    obtain ⟨hfits, hrest⟩ := hproper
    obtain ⟨a₁, e₁, h₁, -⟩ := h.perform_eq_ok hfits
    obtain ⟨a₂, e₂, h₂⟩ := ih h₁ hrest
    refine ⟨a₂, ?_, h₂⟩
    rw [run, e₁]
    change (a₁.run ops >>= _) = _
    rw [e₂]
    rfl

/-- The chains are the sequences, and whatever is asked next is answered by the sequence of the
chain alone. -/
structure Obeys (a : Arena n k) (xss : Fin k → List Slot) : Prop where
  /-- The chains are the sequences. -/
  holds : a.Holds xss
  /-- The chain that is asked answers and becomes what its sequence does, the others are left alone,
  and the arena is left alone where the sequence stays. -/
  answers : ∀ l op, op.Fits n xss → ∃ a', a.perform l op = .ok ((op.onList (xss l)).1, a') ∧
    a'.Holds (step xss l op) ∧ a.Spares a' xss l ∧ ((op.onList (xss l)).2 = xss l → a' = a)

/-- **Chains are independent sequences.**  From an arena with empty chains, any operations that push
only slots on none of the chains are answered as by sequences of slots, without a fault, and the
chains hold these sequences. -/
theorem run_of_proper {ops : List (Fin k × Operation)} (hproper : Proper n (fun _ => []) ops) :
    ∃ a, (fresh n k).run ops = .ok ((runLists (fun _ => []) ops).1, a) ∧
      a.Obeys (runLists (fun _ => []) ops).2 := by
  obtain ⟨a, e, h⟩ := holds_fresh.run_eq_ok hproper
  refine ⟨a, e, h, fun l op hfits => ?_⟩
  obtain ⟨a', e', h', hspares⟩ := h.perform_eq_ok hfits
  refine ⟨a', e', h', hspares, fun hstays => ?_⟩
  have hself : step (runLists (fun _ => []) ops).2 l op = (runLists (fun _ => []) ops).2 := by
    rw [step, hstays, Function.update_eq_self]
  rw [hself] at h'
  exact h'.unique h

/-- The last slot of a chain is removed and pushed on another chain, and a slot is appended where it
has been. -/
theorem run_of_threeSlots : ∃ a, (fresh 3 2).run
      [(0, .push 0), (0, .push 1), (1, .push 2), (0, .remove 1), (1, .push 1), (0, .remove 7),
        (1, .remove 2), (0, .push 2), (1, .pop), (0, .walk), (1, .back)] =
      .ok ([.done, .done, .done, .done, .done, .absent 7, .done, .done, .slot (some 1),
        .slots [0, 2], .slot none], a) ∧ a.links[1]? = some none ∧ a.chains[1] = {} := by
  have hproper : Proper 3 (fun _ : Fin 2 => [])
      [(0, .push 0), (0, .push 1), (1, .push 2), (0, .remove 1), (1, .push 1), (0, .remove 7),
        (1, .remove 2), (0, .push 2), (1, .pop), (0, .walk), (1, .back)] := by
    simp [Proper, Operation.Fits, step, Operation.onList, Function.update_apply,
      Fin.forall_fin_two]
  obtain ⟨a, e, hobeys⟩ := run_of_proper hproper
  have hempty : Chain.Holds {} a.links [] := Chain.holds_empty
  refine ⟨a, e, hobeys.holds.loose 1 (by decide) ?_, (hobeys.holds.chain 1).unique hempty⟩
  decide

end Arena

end FeedbackQueue
