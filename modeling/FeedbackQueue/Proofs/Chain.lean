import FeedbackQueue.Chain
import Mathlib.Data.List.Basic

/-!
# Chains as sequences

A chain is meant to be a finite sequence of slots.  `Chain.Holds c links xs` says that it is one:
the links lead from its head over the slots `xs` to an end, its tail is the last of `xs` and its
length is theirs.  `push`, `pop` and `remove` then append, take the first and delete, and none of
them touches the link of a slot that is on another chain.

## Main statements

* `Links.Leads.nodup` : a sequence that the links lead over has no repetition.
* `Chain.Holds.walk_eq` : a walk reports the sequence.
* `Chain.Holds.push`, `Chain.Holds.pop`, `Chain.Holds.remove` : the operations on sequences.
-/

namespace FeedbackQueue

namespace Links

variable {n : Nat}

/-- The links lead from `start` over the slots `xs` to `stop`. -/
def Leads (links : Links n) (start : Option Slot) (xs : List Slot) (stop : Option Slot) : Prop :=
  match xs with
  | [] => start = stop
  | i :: xs => start = some i ∧ ∃ follower, links[i]? = some follower ∧ Leads links follower xs stop

variable {links links' : Links n} {start stop : Option Slot} {xs ys : List Slot} {i : Slot}

@[simp] theorem leads_nil : links.Leads start [] stop ↔ start = stop := Iff.rfl

@[simp] theorem leads_cons :
    links.Leads start (i :: xs) stop ↔
      start = some i ∧ ∃ follower, links[i]? = some follower ∧ links.Leads follower xs stop :=
  Iff.rfl

theorem leads_append :
    links.Leads start (xs ++ ys) stop ↔
      ∃ mid, links.Leads start xs mid ∧ links.Leads mid ys stop := by
  induction xs generalizing start with
  | nil => simp
  | cons i xs ih =>
    simp only [List.cons_append, leads_cons, ih]
    constructor
    · rintro ⟨rfl, follower, hi, mid, hxs, hys⟩
      exact ⟨mid, ⟨rfl, follower, hi, hxs⟩, hys⟩
    · rintro ⟨mid, ⟨rfl, follower, hi, hxs⟩, hys⟩
      exact ⟨rfl, follower, hi, mid, hxs, hys⟩

theorem Leads.lt (h : links.Leads start xs stop) (hi : i ∈ xs) : i < n := by
  induction xs generalizing start with
  | nil => cases hi
  | cons j xs ih =>
    obtain ⟨-, follower, hj, hxs⟩ := h
    rcases List.mem_cons.1 hi with rfl | hi
    · exact (Vector.getElem?_eq_some_iff.1 hj).1
    · exact ih hxs hi

/-- The links of slots off the sequence do not matter. -/
theorem Leads.congr (h : links.Leads start xs stop) (same : ∀ i ∈ xs, links'[i]? = links[i]?) :
    links'.Leads start xs stop := by
  induction xs generalizing start with
  | nil => exact h
  | cons i xs ih =>
    obtain ⟨rfl, follower, hi, hxs⟩ := h
    refine ⟨rfl, follower, ?_, ih hxs fun j hj => same j (List.mem_cons_of_mem _ hj)⟩
    rw [same i List.mem_cons_self, hi]

/-- Two sequences that start in one place and end are the same. -/
theorem Leads.unique (h : links.Leads start xs none) (h' : links.Leads start ys none) :
    xs = ys := by
  induction xs generalizing start ys with
  | nil =>
    cases ys with
    | nil => rfl
    | cons j ys =>
      obtain ⟨hj, -⟩ := h'
      rw [leads_nil] at h
      rw [h] at hj
      cases hj
  | cons i xs ih =>
    obtain ⟨rfl, follower, hi, hxs⟩ := h
    cases ys with
    | nil => cases h'
    | cons j ys =>
      obtain ⟨hj, follower', hj', hys⟩ := h'
      cases hj
      rw [hi] at hj'
      cases hj'
      rw [ih hxs hys]

/-- Links that lead over one sequence to one end are the same there. -/
theorem Leads.link_eq {start' : Option Slot} (h : links.Leads start xs stop)
    (h' : links'.Leads start' xs stop) (hi : i ∈ xs) : links[i]? = links'[i]? := by
  induction xs generalizing start start' with
  | nil => cases hi
  | cons j xs ih =>
    obtain ⟨-, follower, hj, hxs⟩ := h
    obtain ⟨-, follower', hj', hxs'⟩ := h'
    rcases List.mem_cons.1 hi with rfl | hi
    · -- what follows is the next slot of the sequence, or its end
      have hfollower : follower = follower' := by
        cases xs with
        | nil => exact hxs.trans hxs'.symm
        | cons k xs => exact hxs.1.trans hxs'.1.symm
      rw [hj, hj', hfollower]
    · exact ih hxs hxs' hi

/-- The last slot of a sequence links to where the sequence stops. -/
theorem Leads.getLast_link {last : Slot} (h : links.Leads start xs stop)
    (hlast : xs.getLast? = some last) : links[last]? = some stop := by
  rcases List.eq_nil_or_concat xs with rfl | ⟨ys, i, rfl⟩
  · cases hlast
  · rw [List.concat_eq_append] at h hlast
    rw [List.getLast?_concat] at hlast
    cases hlast
    obtain ⟨mid, -, -, follower, hi, rfl⟩ := leads_append.1 h
    exact hi

/-- A sequence that ends does not come back to a slot: the two ways on from there would differ in
length. -/
theorem Leads.nodup (h : links.Leads start xs none) : xs.Nodup := by
  induction xs generalizing start with
  | nil => exact List.nodup_nil
  | cons i xs ih =>
    have hxs := h
    obtain ⟨-, follower, hi, hrest⟩ := h
    refine List.nodup_cons.2 ⟨fun hmem => ?_, ih hrest⟩
    -- if `i` came again, after `ys`, then `zs` would be as long as `ys ++ i :: zs`
    obtain ⟨ys, zs, rfl⟩ := List.append_of_mem hmem
    obtain ⟨mid, -, hzs⟩ := leads_append.1 hrest
    obtain ⟨rfl, follower', hi', hzs'⟩ := hzs
    rw [hi] at hi'
    cases hi'
    have := congrArg List.length (hrest.unique hzs')
    simp at this
    omega

theorem Leads.length_le (h : links.Leads start xs none) : xs.length ≤ n := by
  have hsub : xs ⊆ List.range n := fun i hi => List.mem_range.2 (h.lt hi)
  simpa using h.nodup.length_le_of_subset hsub

theorem Leads.follow_eq (h : links.Leads start xs none) {k : Nat} (hk : xs.length ≤ k) :
    links.follow k start = xs := by
  induction xs generalizing start k with
  | nil =>
    obtain rfl : start = none := h
    cases k <;> rfl
  | cons i xs ih =>
    obtain ⟨rfl, follower, hi, hxs⟩ := h
    cases k with
    | zero => simp at hk
    | succ k =>
      simp only [follow, hi, Option.join_some]
      rw [ih hxs (by simpa using hk)]

/-! ### Changes of one link -/

theorem next_eq_ok {follower : Option Slot} :
    links.next i = .ok follower ↔ links[i]? = some follower := by
  unfold next
  split <;> simp [*]

theorem assign_eq_ok {follower : Option Slot} :
    links.assign i follower = .ok links' ↔ ∃ h : i < n, links.set i follower h = links' := by
  unfold assign
  split <;> simp [*]

theorem seek_of_mem (before : Option Slot) {zs : List Slot}
    (h : links.Leads start (ys ++ i :: zs) stop) (hi : i ∉ ys) {k : Nat} (hk : ys.length < k) :
    links.seek i k before start = .ok (some (ys.getLast?.or before)) := by
  induction ys generalizing start before k with
  | nil =>
    obtain ⟨rfl, -⟩ := h
    cases k with
    | zero => simp at hk
    | succ k => simp [seek]
  | cons j ys ih =>
    obtain ⟨rfl, follower, hj, hrest⟩ := h
    obtain ⟨hne, hi⟩ := List.ne_and_not_mem_of_not_mem_cons hi
    cases k with
    | zero => simp at hk
    | succ k =>
      simp only [seek, if_neg (Ne.symm hne), next_eq_ok.2 hj]
      change links.seek i k (some j) follower = _
      rw [ih (some j) hrest hi (by simpa using hk), List.getLast?_cons]
      cases ys.getLast? <;> simp

theorem seek_of_not_mem {before : Option Slot} (h : links.Leads start xs none) (hi : i ∉ xs)
    (k : Nat) : links.seek i k before start = .ok none := by
  induction xs generalizing start before k with
  | nil =>
    obtain rfl : start = none := h
    cases k <;> rfl
  | cons j xs ih =>
    obtain ⟨rfl, follower, hj, hrest⟩ := h
    obtain ⟨hne, hi⟩ := List.ne_and_not_mem_of_not_mem_cons hi
    cases k with
    | zero => rfl
    | succ k =>
      simp only [seek, if_neg (Ne.symm hne), next_eq_ok.2 hj]
      exact ih hrest hi k

end Links

namespace Chain

variable {n : Nat} {links links' : Links n} {c c' : Chain} {xs ys : List Slot} {i j : Slot}

/-- The chain is the sequence `xs`. -/
structure Holds (c : Chain) (links : Links n) (xs : List Slot) : Prop where
  /-- The links lead from the head over the slots to an end. -/
  leads : links.Leads c.head xs none
  /-- The tail is the last slot. -/
  tail_eq : c.tail = xs.getLast?
  /-- The length is the number of slots. -/
  len_eq : c.len = xs.length

theorem Holds.nodup (h : c.Holds links xs) : xs.Nodup := h.leads.nodup

theorem Holds.lt (h : c.Holds links xs) (hi : i ∈ xs) : i < n := h.leads.lt hi

theorem Holds.congr (h : c.Holds links xs) (same : ∀ i ∈ xs, links'[i]? = links[i]?) :
    c.Holds links' xs :=
  ⟨h.leads.congr same, h.tail_eq, h.len_eq⟩

/-- A walk reports the sequence of the chain. -/
theorem Holds.walk_eq (h : c.Holds links xs) : c.walk links = xs :=
  h.leads.follow_eq h.leads.length_le

theorem Holds.head_eq (h : c.Holds links xs) : c.head = xs.head? := by
  have hlead := h.leads
  cases xs with
  | nil => exact hlead
  | cons i xs => exact hlead.1

/-- A chain is known by its sequence. -/
theorem Holds.unique (h : c.Holds links xs) (h' : c'.Holds links' xs) : c = c' := by
  have hhead : c.head = c'.head := h.head_eq.trans h'.head_eq.symm
  have htail : c.tail = c'.tail := h.tail_eq.trans h'.tail_eq.symm
  have hlen : c.len = c'.len := h.len_eq.trans h'.len_eq.symm
  cases c
  cases c'
  rw [Chain.mk.injEq]
  exact ⟨hhead, htail, hlen⟩

theorem holds_empty : (({} : Chain)).Holds links [] := ⟨rfl, rfl, rfl⟩

theorem leads_linksUpTo {i k : Nat} (hk : i + k = n) :
    (linksUpTo n).Leads (if i < n then some i else none) (List.range' i k) none := by
  induction k generalizing i with
  | zero => simp [← hk]
  | succ k ih =>
    have hi : i < n := by omega
    rw [List.range'_succ, if_pos hi]
    refine ⟨rfl, if i + 1 < n then some (i + 1) else none, ?_, ih (by omega)⟩
    rw [linksUpTo, Vector.getElem?_ofFn]
    simp [hi]

/-- The chain of all slots. -/
theorem holds_upTo : (upTo n).Holds (linksUpTo n) (List.range n) := by
  have hleads := leads_linksUpTo (i := 0) (k := n) (n := n) (Nat.zero_add n)
  rw [← List.range_eq_range'] at hleads
  unfold upTo
  by_cases hn : n = 0
  · subst n
    exact ⟨rfl, rfl, rfl⟩
  · rw [if_pos (Nat.pos_of_ne_zero hn)] at hleads
    rw [if_neg hn]
    exact ⟨hleads, by rw [List.getLast?_range, if_neg hn], by simp⟩

/-- Appending a slot that is not on the chain. -/
theorem Holds.push (h : c.Holds links xs) (hi : i < n) (hmem : i ∉ xs) :
    ∃ c' links', c.push links i = .ok (c', links') ∧ c'.Holds links' (xs ++ [i]) ∧
      ∀ j, j ∉ xs → j ≠ i → links'[j]? = links[j]? := by
  obtain ⟨hlead, htail, hlen⟩ := h
  rcases List.eq_nil_or_concat xs with rfl | ⟨ys, last, rfl⟩
  · -- an empty chain: the slot becomes its head and its tail
    obtain hhead : c.head = none := hlead
    refine ⟨{ head := some i, tail := some i, len := c.len + 1 }, links.set i none hi, ?_, ?_, ?_⟩
    · rw [Chain.push, Links.assign_eq_ok.2 ⟨hi, rfl⟩, htail]
      rfl
    · exact ⟨⟨rfl, none, by simp, rfl⟩, rfl, by simp [hlen]⟩
    · intro j _ hj
      exact Vector.getElem?_set_ne hi (Ne.symm hj)
  · -- the link of the last slot leads to the new one
    rw [List.concat_eq_append] at *
    have hne : last ≠ i := by
      rintro rfl
      simp at hmem
    have hlast : last < n := hlead.lt (by simp)
    refine ⟨{ c with tail := some i, len := c.len + 1 },
      (links.set i none hi).set last (some i) hlast, ?_, ?_, ?_⟩
    · rw [Chain.push, Links.assign_eq_ok.2 ⟨hi, rfl⟩, htail, List.getLast?_concat]
      change (Links.assign (links.set i none hi) last (some i) >>= _) = _
      rw [Links.assign_eq_ok.2 ⟨hlast, rfl⟩]
      rfl
    · refine ⟨?_, by simp, by simp [hlen]⟩
      obtain ⟨mid, hys, rfl, follower, -, -⟩ := Links.leads_append.1 hlead
      have hnotlast : last ∉ ys := by
        have := hlead.nodup
        rw [List.nodup_append] at this
        exact fun hmem => this.2.2 last hmem last (by simp) rfl
      rw [List.append_assoc]
      refine Links.leads_append.2 ⟨some last, hys.congr fun j hj => ?_, rfl, some i, by simp, rfl,
        none, ?_, rfl⟩
      · rw [Vector.getElem?_set_ne hlast (by rintro rfl; exact hnotlast hj),
          Vector.getElem?_set_ne hi (by rintro rfl; exact hmem (by simp [hj]))]
      · rw [Vector.getElem?_set_ne hlast hne, Vector.getElem?_set_self hi]
    · intro j hj hji
      rw [Vector.getElem?_set_ne hlast (by rintro rfl; simp at hj),
        Vector.getElem?_set_ne hi (Ne.symm hji)]

/-- Taking the first slot off a chain. -/
theorem Holds.pop (h : c.Holds links (i :: xs)) :
    ∃ c' links', c.pop links = .ok (some (i, c', links')) ∧ c'.Holds links' xs ∧
      ∀ j, j ≠ i → links'[j]? = links[j]? := by
  have hnotin : i ∉ xs := (List.nodup_cons.1 h.nodup).1
  have hi : i < n := h.lt List.mem_cons_self
  obtain ⟨⟨hhead, follower, hnext, hrest⟩, htail, hlen⟩ := h
  refine ⟨{ head := follower, tail := if follower.isNone then none else c.tail, len := xs.length },
    links.set i none hi, ?_, ⟨?_, ?_, rfl⟩, ?_⟩
  · rw [Chain.pop, hhead]
    change (links.next i >>= _) = _
    rw [Links.next_eq_ok.2 hnext]
    change (links.assign i none >>= _) = _
    rw [Links.assign_eq_ok.2 ⟨hi, rfl⟩, hlen]
    rfl
  · refine hrest.congr fun j hj => Vector.getElem?_set_ne hi ?_
    rintro rfl
    exact hnotin hj
  · -- the tail stays, unless the slot was the only one
    cases xs with
    | nil =>
      obtain rfl : follower = none := hrest
      rfl
    | cons k ks =>
      obtain ⟨rfl, -⟩ := hrest
      simp [htail]
  · exact fun j hj => Vector.getElem?_set_ne hi (Ne.symm hj)

theorem Holds.pop_nil (h : c.Holds links []) : c.pop links = .ok none := by
  rw [Chain.pop, show c.head = none from h.leads]
  rfl

/-- The last slot once `i` is deleted: the one before `i` where `i` came last. -/
theorem getLast?_delete {zs : List Slot} (hi : i ∉ zs) :
    (if (ys ++ i :: zs).getLast? = some i then ys.getLast? else (ys ++ i :: zs).getLast?) =
      (ys ++ zs).getLast? := by
  cases zs with
  | nil => simp
  | cons k ks =>
    have hlast : (ys ++ i :: k :: ks).getLast? = (k :: ks).getLast? := by
      simp [List.getLast?_append, List.getLast?_cons]
    have hne : (k :: ks).getLast? ≠ some i := fun h => hi (List.mem_of_getLast? h)
    rw [hlast, if_neg hne]
    simp [List.getLast?_append, List.getLast?_cons]

/-- Linking the slot before `i` to the one after it takes `i` out of the sequence. -/
theorem leads_bypass {ws zs : List Slot} {last : Slot} {start follower : Option Slot}
    (hi : i < n) (hlast : last < n) (hnodup : (ws ++ last :: i :: zs).Nodup)
    (hws : links.Leads start ws (some last)) (hrest : links.Leads follower zs none) :
    Links.Leads ((links.set i none hi).set last follower hlast) start (ws ++ last :: zs) none := by
  simp only [List.nodup_append, List.nodup_cons, List.mem_cons, not_or] at hnodup
  obtain ⟨-, ⟨⟨-, hlast_zs⟩, hi_zs, -⟩, hdisjoint⟩ := hnodup
  refine Links.leads_append.2 ⟨some last, hws.congr fun j hj => ?_, rfl, follower,
    Vector.getElem?_set_self hlast, hrest.congr fun j hj => ?_⟩
  · rw [Vector.getElem?_set_ne hlast (by rintro rfl; exact hdisjoint _ hj _ (.inl rfl) rfl),
      Vector.getElem?_set_ne hi (by rintro rfl; exact hdisjoint _ hj _ (.inr (.inl rfl)) rfl)]
  · rw [Vector.getElem?_set_ne hlast (by rintro rfl; exact hlast_zs hj),
      Vector.getElem?_set_ne hi (by rintro rfl; exact hi_zs hj)]

/-- Deleting a slot of the chain: the one before it is linked to the one after it. -/
theorem Holds.remove (h : c.Holds links xs) (hmem : i ∈ xs) :
    ∃ c' links', c.remove links i = .ok (some (c', links')) ∧ c'.Holds links' (xs.erase i) ∧
      ∀ j, j ∉ xs → links'[j]? = links[j]? := by
  have hi : i < n := h.lt hmem
  have hnodup := h.nodup
  obtain ⟨hlead, htail, hlen⟩ := h
  obtain ⟨ys, zs, rfl, hys⟩ := List.eq_append_cons_of_mem hmem
  have hzs : i ∉ zs := by
    intro hz
    rw [List.nodup_append, List.nodup_cons] at hnodup
    exact hnodup.2.1.1 hz
  have herase : (ys ++ i :: zs).erase i = ys ++ zs := by
    rw [List.erase_append_right _ hys, List.erase_cons_head]
  obtain ⟨mid, hfirst, rfl, follower, hnext, hrest⟩ := Links.leads_append.1 hlead
  have hseek := Links.seek_of_mem none hlead hys (k := n) (by
    have := hlead.length_le
    simp at this
    omega)
  have hlen' : decrement c.len = .ok (ys ++ zs).length := decrement_eq_ok.2 (by simp [hlen]; omega)
  rw [herase, Chain.remove, hseek]
  change ∃ c' links', (links.next i >>= _) = _ ∧ _
  rw [Links.next_eq_ok.2 hnext]
  change ∃ c' links', (links.assign i none >>= _) = _ ∧ _
  rw [Links.assign_eq_ok.2 ⟨hi, rfl⟩, Option.or_none, htail]
  -- The slot before `i`, if there is one, is relinked; the head moves on otherwise.
  rcases List.eq_nil_or_concat ys with rfl | ⟨ws, last, rfl⟩
  · refine ⟨{ head := follower, tail := _, len := zs.length }, links.set i none hi, ?_,
      ⟨?_, getLast?_delete hzs, rfl⟩, ?_⟩
    · change (decrement c.len >>= _) = _
      rw [hlen']
      rfl
    · exact hrest.congr fun j hj => Vector.getElem?_set_ne hi (by rintro rfl; exact hzs hj)
    · exact fun j hj => Vector.getElem?_set_ne hi (by rintro rfl; exact hj (by simp))
  · rw [List.concat_eq_append] at *
    have hlast : last < n := hlead.lt (by simp)
    obtain ⟨mid, hws, rfl, -⟩ := Links.leads_append.1 hfirst
    refine ⟨{ head := c.head, tail := _, len := (ws ++ [last] ++ zs).length },
      (links.set i none hi).set last follower hlast, ?_, ⟨?_, getLast?_delete hzs, rfl⟩, ?_⟩
    · simp only [List.getLast?_concat]
      change (Links.assign (links.set i none hi) last follower >>= _) = _
      rw [Links.assign_eq_ok.2 ⟨hlast, rfl⟩]
      change (decrement c.len >>= _) = _
      rw [hlen']
      rfl
    · simp only [List.append_assoc, List.singleton_append] at hnodup ⊢
      exact leads_bypass hi hlast hnodup hws hrest
    · intro j hj
      rw [Vector.getElem?_set_ne hlast (by rintro rfl; simp at hj),
        Vector.getElem?_set_ne hi (by rintro rfl; simp at hj)]

theorem Holds.remove_of_not_mem (h : c.Holds links xs) (hi : i ∉ xs) :
    c.remove links i = .ok none := by
  rw [Chain.remove, Links.seek_of_not_mem h.leads hi]
  rfl

end Chain

end FeedbackQueue
