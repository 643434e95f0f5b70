import Mathlib.Data.List.Nodup

/-!
# Circular doubly linked lists

A node of an intrusive list carries two link fields and nothing else; the list itself is a *ring*
of nodes through a distinguished head.  This file is the algebra of such rings, over an arbitrary
type of nodes.

* `Links ν` is the memory: the `prev` and `next` field of every node.
* `Chain l xs` says that neighbours in `xs` point at each other, and `IsRing l h xs` that the head
  `h` and the members `xs`, all different, form a closed chain.
* `IsRing.insert` and `IsRing.remove` are the two edits, stated by what the new fields have to say,
  and `IsRing.frame` says that an edit away from a ring leaves it alone.
* `IsRing.unique` reads the members back: a heap determines the sequence a head represents.
-/

namespace Intrusive

open List

variable {ν : Type}

/-- The link fields of every node. -/
@[ext] structure Links (ν : Type) where
  /-- The node before. -/
  prev : ν → ν
  /-- The node after. -/
  next : ν → ν

/-- Neighbours in the list point at each other. -/
def Chain (l : Links ν) : List ν → Prop
  | x :: y :: rest => l.next x = y ∧ l.prev y = x ∧ Chain l (y :: rest)
  | _ => True

@[simp] theorem chain_singleton (l : Links ν) (x : ν) : Chain l [x] := trivial

variable {l l' : Links ν} {x h : ν} {xs as bs : List ν} {g n : ν} {ys : List ν}

/-- A chain can be cut between any two of its nodes; what is lost are the two fields that cross the
cut. -/
theorem chain_cut : Chain l (x :: (as ++ (bs ++ [h]))) ↔ Chain l (x :: as) ∧ Chain l (bs ++ [h]) ∧
    l.next (as.getLastD x) = bs.headD h ∧ l.prev (bs.headD h) = as.getLastD x := by
  induction as generalizing x with
  | nil => cases bs <;> simp [Chain, and_comm, and_assoc]
  | cons a as ih => simp only [cons_append, Chain, getLastD_cons, ih, and_assoc]

/-- A chain reads the `next` field of every node but its last and the `prev` field of every node
but its first. -/
theorem Chain.congr : ∀ {xs : List ν}, Chain l xs →
    (∀ x ∈ xs.dropLast, l'.next x = l.next x) → (∀ x ∈ xs.tail, l'.prev x = l.prev x) →
    Chain l' xs
  | [], _, _, _ => trivial
  | [_], _, _, _ => trivial
  | x :: y :: rest, h, hn, hp => by
    obtain ⟨h1, h2, h3⟩ := h
    refine ⟨?_, ?_, Chain.congr h3 (fun z hz => hn z ?_) (fun z hz => hp z ?_)⟩
    · rw [hn x (by simp), h1]
    · rw [hp y (by simp), h2]
    · exact mem_cons_of_mem _ hz
    · exact mem_cons_of_mem _ hz

/-- The head `h` and the members `xs` are different nodes that form a closed chain. -/
structure IsRing (l : Links ν) (h : ν) (xs : List ν) : Prop where
  /-- The chain starts and ends at the head. -/
  chain : Chain l (h :: (xs ++ [h]))
  /-- No node occurs twice. -/
  nodup : (h :: xs).Nodup

theorem IsRing.head_notMem (hr : IsRing l h xs) : h ∉ xs := (nodup_cons.1 hr.nodup).1

theorem IsRing.nodup_tail (hr : IsRing l h xs) : xs.Nodup := (nodup_cons.1 hr.nodup).2

theorem isRing_append : IsRing l h (as ++ bs) ↔ (h :: (as ++ bs)).Nodup ∧ Chain l (h :: as) ∧
    Chain l (bs ++ [h]) ∧
    l.next (as.getLastD h) = bs.headD h ∧ l.prev (bs.headD h) = as.getLastD h := by
  rw [← chain_cut, ← append_assoc]
  exact ⟨fun hr => ⟨hr.nodup, hr.chain⟩, fun hr => ⟨hr.2, hr.1⟩⟩

/-- The first node after the head, which is the head itself in an empty ring. -/
theorem IsRing.next_head (hr : IsRing l h xs) : l.next h = xs.headD h :=
  (@isRing_append _ l h [] xs |>.1 hr).2.2.2.1

theorem IsRing.prev_head (hr : IsRing l h xs) : l.prev h = xs.getLastD h := by
  rw [← append_nil xs] at hr
  simpa using (isRing_append.1 hr).2.2.2.2

theorem IsRing.next_mem (hr : IsRing l h (as ++ x :: bs)) : l.next x = bs.headD h := by
  rw [append_cons] at hr
  simpa using (isRing_append.1 hr).2.2.2.1

theorem IsRing.prev_mem (hr : IsRing l h (as ++ x :: bs)) : l.prev x = as.getLastD h :=
  (isRing_append.1 hr).2.2.2.2

theorem mem_of_cut (h : ν) (as bs : List ν) :
    as.getLastD h ∈ h :: (as ++ bs) ∧ bs.headD h ∈ h :: (as ++ bs) := by
  refine ⟨mem_append_left bs (getLastD_mem_cons ..), ?_⟩
  cases bs <;> simp

theorem IsRing.notMem (hr : IsRing l h (as ++ x :: bs)) : x ∉ h :: (as ++ bs) := by
  have hnd := hr.nodup
  rw [← cons_append, nodup_middle, nodup_cons] at hnd
  exact hnd.1

/-- The neighbours of a node of the ring are nodes of the ring. -/
theorem IsRing.neighbours (hr : IsRing l h xs) (hx : x ∈ h :: xs) :
    l.next x ∈ h :: xs ∧ l.prev x ∈ h :: xs := by
  rcases mem_cons.1 hx with rfl | hx
  · rw [hr.next_head, hr.prev_head]
    exact ⟨(mem_of_cut x [] xs).2, getLastD_mem_cons ..⟩
  obtain ⟨as, bs, rfl⟩ := append_of_mem hx
  rw [hr.next_mem, hr.prev_mem, append_cons]
  refine ⟨(mem_of_cut h (as ++ [x]) bs).2, ?_⟩
  rw [← append_cons]
  exact (mem_of_cut h as (x :: bs)).1

theorem IsRing.next_ne (hr : IsRing l h xs) (hx : x ∈ xs) : l.next x ≠ x := by
  obtain ⟨as, bs, rfl⟩ := append_of_mem hx
  have hnd := hr.nodup
  rw [hr.next_mem]
  rcases bs with _ | ⟨_, _⟩
  · rintro rfl
    simp at hnd
  rintro rfl
  exact absurd hnd.of_cons (by simp [nodup_append])

theorem IsRing.next_head_eq_iff (hr : IsRing l h xs) : l.next h = h ↔ xs = [] := by
  rw [hr.next_head]
  rcases xs with _ | ⟨_, _⟩
  · simp
  have hne := hr.head_notMem
  simp only [mem_cons, not_or] at hne
  simp [Ne.symm hne.1]

/-! ## Reading a ring back -/

/-- Chains that leave a common node, each followed until its head comes up, are the same: the one
whose head comes up first would have to pass through it. -/
theorem chain_unique : ∀ {x : ν} {xs ys : List ν},
    Chain l (x :: (xs ++ [g])) → Chain l (x :: (ys ++ [h])) → g ∉ ys → h ∉ xs → g = h ∧ xs = ys
  | _, [], [], hx, hy, _, _ => by exact ⟨hx.1.symm.trans hy.1, rfl⟩
  | _, [], y :: ys, hx, hy, hys, _ => by
    exact absurd (hx.1.symm.trans hy.1) fun he => hys (by simp [he])
  | _, x :: xs, [], hx, hy, _, hxs => by
    exact absurd (hy.1.symm.trans hx.1) fun he => hxs (by simp [he])
  | _, x :: xs, y :: ys, hx, hy, hys, hxs => by
    obtain rfl : x = y := hx.1.symm.trans hy.1
    simp only [mem_cons, not_or] at hxs hys
    obtain ⟨hgh, rfl⟩ := chain_unique hx.2.2 hy.2.2 hys.2 hxs.2
    exact ⟨hgh, rfl⟩

/-- **A heap determines the sequence a head represents.** -/
theorem IsRing.unique (hx : IsRing l h xs) (hy : IsRing l h ys) : xs = ys :=
  (chain_unique hx.chain hy.chain hy.head_notMem hx.head_notMem).2

/-- Rings with different heads, neither of which is a member of the other ring, have no member in
common. -/
theorem IsRing.disjoint (hx : IsRing l g xs) (hy : IsRing l h ys) (hgh : g ≠ h) (hg : g ∉ ys)
    (hh : h ∉ xs) : xs.Disjoint ys := by
  intro z hzx hzy
  obtain ⟨as, bs, rfl⟩ := append_of_mem hzx
  obtain ⟨cs, ds, rfl⟩ := append_of_mem hzy
  exact hgh (chain_unique (isRing_append.1 hx).2.2.1 (isRing_append.1 hy).2.2.1
    (fun hm => hg (by simp [hm])) (fun hm => hh (by simp [hm]))).1

/-! ## Edits -/

/-- An edit that touches neither the head nor a member leaves the ring alone. -/
theorem IsRing.frame (hr : IsRing l h xs) (hn : ∀ x ∈ h :: xs, l'.next x = l.next x)
    (hp : ∀ x ∈ h :: xs, l'.prev x = l.prev x) : IsRing l' h xs := by
  refine ⟨hr.chain.congr (fun x hx => hn x ?_) (fun x hx => hp x ?_), hr.nodup⟩
  · rwa [← cons_append, dropLast_concat] at hx
  · simpa [or_comm] using hx

/-- The two sides of a cut survive an edit that rewrites only the two fields crossing it. -/
theorem sides_congr (hnd : (h :: (as ++ bs)).Nodup) (hca : Chain l (h :: as))
    (hcb : Chain l (bs ++ [h]))
    (hn : ∀ x ∈ h :: (as ++ bs), x ≠ as.getLastD h → l'.next x = l.next x)
    (hp : ∀ x ∈ h :: (as ++ bs), x ≠ bs.headD h → l'.prev x = l.prev x) :
    Chain l' (h :: as) ∧ Chain l' (bs ++ [h]) := by
  rw [nodup_cons, nodup_append] at hnd
  obtain ⟨hh, hna, hnb, hab⟩ := hnd
  simp only [mem_append, not_or] at hh
  constructor
  · refine hca.congr (fun x hx => hn x ?_ ?_) (fun x hx => hp x ?_ ?_)
    · have := dropLast_subset _ hx
      simp only [mem_cons, mem_append] at this ⊢
      tauto
    · have hnd : (h :: as).Nodup := nodup_cons.2 ⟨hh.1, hna⟩
      rw [← dropLast_append_getLast (cons_ne_nil h as), nodup_append, getLast_eq_getLastD] at hnd
      exact hnd.2.2 x hx _ (by simp)
    · simp only [tail_cons] at hx
      simp [hx]
    · cases bs with
      | nil => rintro rfl; exact hh.1 hx
      | cons b bs => exact hab x hx b (by simp)
  · refine hcb.congr (fun x hx => hn x ?_ ?_) (fun x hx => hp x ?_ ?_)
    · rw [dropLast_concat] at hx
      simp [hx]
    · rw [dropLast_concat] at hx
      rcases eq_nil_or_concat as with rfl | ⟨cs, c, rfl⟩
      · rintro rfl; exact hh.2 hx
      · simpa using (hab c (by simp) x hx).symm
    · have := mem_of_mem_tail hx
      simp only [mem_cons, mem_append] at this ⊢
      tauto
    · have hnd : (bs ++ [h]).Nodup := by
        rw [nodup_append_comm]
        exact nodup_cons.2 ⟨hh.2, hnb⟩
      rcases bs with _ | ⟨_, _⟩
      · simp at hx
      rintro rfl
      exact (nodup_cons.1 hnd).1 hx

/-- **Linking a node in.**  A new node between the two sides of a cut needs four fields; every
other field of the ring is as before. -/
theorem IsRing.insert (hr : IsRing l h (as ++ bs)) (hnew : n ∉ h :: (as ++ bs))
    (h1 : l'.next (as.getLastD h) = n) (h2 : l'.prev n = as.getLastD h)
    (h3 : l'.next n = bs.headD h) (h4 : l'.prev (bs.headD h) = n)
    (hn : ∀ x, x ≠ as.getLastD h → x ≠ n → l'.next x = l.next x)
    (hp : ∀ x, x ≠ bs.headD h → x ≠ n → l'.prev x = l.prev x) : IsRing l' h (as ++ n :: bs) := by
  obtain ⟨hnd, hca, hcb, -, -⟩ := isRing_append.1 hr
  have hne : ∀ x ∈ h :: (as ++ bs), x ≠ n := fun x hx he => hnew (he ▸ hx)
  obtain ⟨hca', hcb'⟩ : Chain l' (h :: as) ∧ Chain l' (bs ++ [h]) := sides_congr hnd hca hcb
    (fun x hx hl => hn x hl (hne x hx)) (fun x hx hl => hp x hl (hne x hx))
  refine isRing_append.2 ⟨?_, hca', ?_, h1, h2⟩
  · rw [← cons_append, nodup_middle]
    exact nodup_cons.2 ⟨hnew, hnd⟩
  · exact (@chain_cut _ l' n h [] bs).2 ⟨trivial, hcb', h3, h4⟩

/-- **Taking a member out.**  Its two neighbours are made to point at each other; every other field
that the rest of the ring reads is as before. -/
theorem IsRing.remove (hr : IsRing l h (as ++ n :: bs)) (h1 : l'.next (as.getLastD h) = bs.headD h)
    (h2 : l'.prev (bs.headD h) = as.getLastD h)
    (hn : ∀ x, x ≠ as.getLastD h → x ≠ n → l'.next x = l.next x)
    (hp : ∀ x, x ≠ bs.headD h → x ≠ n → l'.prev x = l.prev x) : IsRing l' h (as ++ bs) := by
  obtain ⟨hnd, hca, hcb, -, -⟩ := isRing_append.1 hr
  have hcb := ((@chain_cut _ l n h [] bs).1 hcb).2.1
  rw [← cons_append, nodup_middle, nodup_cons] at hnd
  have hne : ∀ x ∈ h :: (as ++ bs), x ≠ n := fun x hx he => hnd.1 (he ▸ hx)
  obtain ⟨hca', hcb'⟩ : Chain l' (h :: as) ∧ Chain l' (bs ++ [h]) := sides_congr hnd.2 hca hcb
    (fun x hx hl => hn x hl (hne x hx)) (fun x hx hl => hp x hl (hne x hx))
  exact isRing_append.2 ⟨hnd.2, hca', hcb', h1, h2⟩

end Intrusive
