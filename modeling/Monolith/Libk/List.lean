import Monolith.Lib.Ring

/-!
# `libk/list.h`

The kernel keeps every queue and every set of live objects in an intrusive circular list.  The
functions here are the inline functions of the header, each one the field writes of the source in
the source's order, over the link memory `Links ν` of `Monolith.Lib.Ring`.

The specifications say what each of them does to a ring.  `list_add` and `list_add_tail` are called
with the list head in most places, but also with a *member* as their first argument
(`space_check_range`, `space_replace_before`), so the lemmas cut the ring at an arbitrary point:
`listAdd` inserts behind the last node of the left side, `listAddTail` in front of the first node
of the right side, and either of these may be the head.

`Rings` is several lists that live in one memory, and what `list_del` and `list_add` on one of them
do to all.
-/

namespace Monolith
namespace Libk

open Function Intrusive List

variable {ν : Type} [DecidableEq ν]

/-- `list_node_init`: an empty list, or a node that is in none. -/
def listNodeInit (l : Links ν) (node : ν) : Links ν where
  prev := update l.prev node node
  next := update l.next node node

/-- `__list_add`. -/
def listAddBetween (l : Links ν) (node prev next : ν) : Links ν where
  prev := update (update l.prev next node) node prev
  next := update (update l.next node next) prev node

/-- `list_add`: link `node` in behind `head`. -/
def listAdd (l : Links ν) (head node : ν) : Links ν := listAddBetween l node head (l.next head)

/-- `list_add_tail`: link `node` in before `head`. -/
def listAddTail (l : Links ν) (head node : ν) : Links ν := listAddBetween l node (l.prev head) head

/-- `__list_del`. -/
def listDelBetween (l : Links ν) (prev next : ν) : Links ν where
  prev := update l.prev next prev
  next := update l.next prev next

def listDelEntry (l : Links ν) (entry : ν) : Links ν :=
  listDelBetween l (l.prev entry) (l.next entry)

/-- `list_del`: take `entry` out of its list and make it point at itself. -/
def listDel (l : Links ν) (entry : ν) : Links ν := listNodeInit (listDelEntry l entry) entry

/-- `list_move`: take `entry` out of its list and link it in behind `head`. -/
def listMove (l : Links ν) (head entry : ν) : Links ν := listAdd (listDelEntry l entry) head entry

def listEmpty (l : Links ν) (head : ν) : Bool := head == l.next head

/-- `list_for_each_entry_safe` from `pos`, with the node `tmp` after it read before the body runs:
the nodes visited. `none` when the walk is not over after `fuel` tests of its condition. -/
def listForEachSafe (head : ν) (body : Links ν → ν → Links ν) :
    Nat → Links ν → ν → ν → Option (List ν × Links ν)
  | 0, _, _, _ => none
  | fuel + 1, l, pos, tmp =>
    if pos = head then some ([], l)
    else (listForEachSafe head body fuel (body l pos) tmp ((body l pos).next tmp)).map
      (Prod.map (pos :: ·) id)

/-! ## What they do to a ring -/

variable {l : Links ν} {h n g : ν} {xs as bs ys : List ν}

theorem listEmpty_eq (hr : IsRing l h xs) : listEmpty l h = decide (xs = []) := by
  rw [listEmpty, Bool.eq_iff_iff, beq_iff_eq, decide_eq_true_iff, ← hr.next_head_eq_iff]
  exact eq_comm

section

variable (hr : IsRing l h (as ++ bs))

include hr

/-- `__list_add` between the two neighbours of a cut links the node in there. -/
theorem listAddBetween_isRing (hnew : n ∉ h :: (as ++ bs)) :
    IsRing (listAddBetween l n (as.getLastD h) (bs.headD h)) h (as ++ n :: bs) := by
  have hp : as.getLastD h ≠ n := fun he => hnew (he ▸ (mem_of_cut h as bs).1)
  have hq : bs.headD h ≠ n := fun he => hnew (he ▸ (mem_of_cut h as bs).2)
  refine hr.insert hnew ?_ ?_ ?_ ?_ (fun x hx hxn => ?_) (fun x hx hxn => ?_)
  · exact update_self ..
  · exact update_self ..
  · exact (update_of_ne hp.symm ..).trans (update_self ..)
  · exact (update_of_ne hq ..).trans (update_self ..)
  · exact (update_of_ne hx ..).trans (update_of_ne hxn ..)
  · exact (update_of_ne hxn ..).trans (update_of_ne hx ..)

/-- `list_add` and `list_add_tail` of either neighbour of a cut link the node in there. -/
theorem listAdd_eq (n : ν) :
    listAdd l (as.getLastD h) n = listAddBetween l n (as.getLastD h) (bs.headD h) ∧
      listAddTail l (bs.headD h) n = listAddBetween l n (as.getLastD h) (bs.headD h) := by
  obtain ⟨-, -, -, hnext, hprev⟩ := isRing_append.1 hr
  rw [listAdd, hnext, listAddTail, hprev]
  exact ⟨rfl, rfl⟩

/-- **`list_add` inserts behind its first argument**, the head or a member. -/
theorem listAdd_isRing (hnew : n ∉ h :: (as ++ bs)) :
    IsRing (listAdd l (as.getLastD h) n) h (as ++ n :: bs) :=
  (listAdd_eq hr n).1 ▸ listAddBetween_isRing hr hnew

/-- **`list_add_tail` inserts before its first argument**, the head or a member. -/
theorem listAddTail_isRing (hnew : n ∉ h :: (as ++ bs)) :
    IsRing (listAddTail l (bs.headD h) n) h (as ++ n :: bs) :=
  (listAdd_eq hr n).2 ▸ listAddBetween_isRing hr hnew

end

theorem listDelEntry_isRing (hr : IsRing l h (as ++ n :: bs)) :
    IsRing (listDelEntry l n) h (as ++ bs) := by
  rw [listDelEntry, hr.prev_mem, hr.next_mem]
  refine hr.remove ?_ ?_ (fun x hx hxn => ?_) (fun x hx hxn => ?_)
  · exact update_self ..
  · exact update_self ..
  · exact update_of_ne hx ..
  · exact update_of_ne hx ..

theorem listNodeInit_frame (hr : IsRing l h xs) (hn : n ∉ h :: xs) :
    IsRing (listNodeInit l n) h xs := by
  have hne : ∀ x ∈ h :: xs, x ≠ n := fun x hx heq => hn (heq ▸ hx)
  refine hr.frame (fun x hx => ?_) (fun x hx => ?_) <;> simp [listNodeInit, hne x hx]

/-- **`list_del` takes its argument out**, whichever ring it is a member of. -/
theorem listDel_isRing (hr : IsRing l h (as ++ n :: bs)) : IsRing (listDel l n) h (as ++ bs) :=
  listNodeInit_frame (listDelEntry_isRing hr) hr.notMem

/-! ## Nodes that are in no list -/

theorem listNodeInit_isRing (l : Links ν) (n : ν) : IsRing (listNodeInit l n) n [] := by
  refine ⟨⟨?_, ?_, trivial⟩, by simp⟩
  · simp [listNodeInit]
  · simp [listNodeInit]

theorem listDel_alone (l : Links ν) (n : ν) : IsRing (listDel l n) n [] := listNodeInit_isRing _ n

theorem listDelEntry_of_alone (h : IsRing l n []) : listDelEntry l n = l := by
  have hnext : l.next n = n := by simpa using h.next_head
  have hprev : l.prev n = n := by simpa using h.prev_head
  rw [listDelEntry, hnext, hprev, listDelBetween, update_eq_self_iff.2 hprev.symm,
    update_eq_self_iff.2 hnext.symm]

/-! ## What they leave alone -/

/-- What is linked in between two nodes of one ring leaves the others alone. -/
theorem listAddBetween_frame {p q : ν} (hr : IsRing l h xs) (hdis : (h :: xs).Disjoint (g :: ys))
    (hp : p ∈ g :: ys) (hq : q ∈ g :: ys) (hn : n ∉ h :: xs) :
    IsRing (listAddBetween l n p q) h xs := by
  have hne : ∀ x ∈ h :: xs, x ≠ p ∧ x ≠ q ∧ x ≠ n := fun x hx =>
    ⟨fun he => hdis hx (he ▸ hp), fun he => hdis hx (he ▸ hq), fun he => hn (he ▸ hx)⟩
  refine hr.frame (fun x hx => ?_) (fun x hx => ?_) <;> simp [listAddBetween, hne x hx]

theorem listDelEntry_frame (hr : IsRing l h xs) (hg : IsRing l g ys) (hn : n ∈ ys)
    (hdis : (h :: xs).Disjoint (g :: ys)) : IsRing (listDelEntry l n) h xs := by
  obtain ⟨hnext, hprev⟩ := hg.neighbours (mem_cons_of_mem g hn)
  have hne : ∀ x ∈ h :: xs, x ≠ l.prev n ∧ x ≠ l.next n := fun x hx =>
    ⟨fun he => hdis hx (he ▸ hprev), fun he => hdis hx (he ▸ hnext)⟩
  refine hr.frame (fun x hx => ?_) (fun x hx => ?_) <;>
    simp [listDelEntry, listDelBetween, hne x hx]

theorem listDel_frame (hr : IsRing l h xs) (hg : IsRing l g ys) (hn : n ∈ ys)
    (hdis : (h :: xs).Disjoint (g :: ys)) : IsRing (listDel l n) h xs :=
  listNodeInit_frame (listDelEntry_frame hr hg hn hdis) fun hmem => hdis hmem (mem_cons_of_mem g hn)

/-! ## Several lists in one memory -/

section Rings

variable {ι : Type}

/-- The lists with the heads `head i`, for the `i` in `L`, have the members `m i`. -/
structure Rings (l : Links ν) (L : ι → Prop) (head : ι → ν) (m : ι → List ν) : Prop where
  ring : ∀ i, L i → IsRing l (head i) (m i)
  inj : ∀ i j, head i = head j → i = j
  /-- No head is a member. -/
  apart : ∀ i j, head i ∉ m j

variable {l : Links ν} {L : ι → Prop} {head : ι → ν} {m : ι → List ν} {i : ι} {n : ν} {j : ι}
  {as bs : List ν}

omit [DecidableEq ν] in
theorem Rings.disjoint (h : Rings l L head m) (hi : L i) (hj : L j) (hij : i ≠ j) :
    (head i :: m i).Disjoint (head j :: m j) := by
  have hdis : (m i).Disjoint (m j) :=
    (h.ring i hi).disjoint (h.ring j hj) (fun heq => hij (h.inj i j heq)) (h.apart i j)
    (h.apart j i)
  intro x hx hy
  rcases mem_cons.1 hx with rfl | hx
  · rcases mem_cons.1 hy with heq | hy
    · exact hij (h.inj i j heq)
    · exact h.apart i j hy
  · rcases mem_cons.1 hy with rfl | hy
    · exact h.apart j i hx
    · exact hdis hx hy

variable [DecidableEq ι]

theorem Rings.delEntry (h : Rings l L head m) (hi : L i) (hn : n ∈ m i) :
    Rings (listDelEntry l n) L head (update m i ((m i).erase n)) := by
  refine ⟨fun j hj => ?_, h.inj, fun j k => ?_⟩
  · rcases eq_or_ne j i with rfl | hij
    · obtain ⟨as, bs, hsplit⟩ := append_of_mem hn
      have hr := h.ring j hj
      rw [hsplit] at hr
      have hnot : n ∉ as := fun hmem => hr.notMem (by simp [hmem])
      rw [update_self, hsplit, erase_append_right _ hnot, erase_cons_head]
      exact listDelEntry_isRing hr
    · rw [update_of_ne hij]
      exact listDelEntry_frame (h.ring j hj) (h.ring i hi) hn (h.disjoint hj hi hij)
  · by_cases hki : k = i
    · rw [hki, update_self]
      exact fun hmem => h.apart j i (mem_of_mem_erase hmem)
    · rw [update_of_ne hki]
      exact h.apart j k

theorem Rings.notMem_erase (h : Rings l L head m) (hi : L i) (hn : n ∈ m i) (hj : L j) :
    n ∉ update m i ((m i).erase n) j := by
  rcases eq_or_ne j i with rfl | hij
  · rw [update_self]
    exact (h.ring j hj).nodup_tail.not_mem_erase
  · rw [update_of_ne hij]
    exact fun hmem => h.disjoint hj hi hij (mem_cons_of_mem _ hmem) (mem_cons_of_mem _ hn)

omit [DecidableEq ι] in
theorem Rings.nodeInit (h : Rings l L head m) (hn : ∀ j, L j → n ∉ m j) (hhead : ∀ j, head j ≠ n) :
    Rings (listNodeInit l n) L head m := by
  refine ⟨fun j hj => listNodeInit_frame (h.ring j hj) ?_, h.inj, h.apart⟩
  rw [mem_cons, not_or]
  exact ⟨(hhead j).symm, hn j hj⟩

theorem Rings.del (h : Rings l L head m) (hi : L i) (hn : n ∈ m i) :
    Rings (listDel l n) L head (update m i ((m i).erase n)) :=
  (h.delEntry hi hn).nodeInit (fun _ hj => h.notMem_erase hi hn hj) fun j he =>
    h.apart j i (he ▸ hn)

/-- **A node that is in no list is linked in** between the two sides of a cut. -/
theorem Rings.insert (h : Rings l L head m) (hi : L i) (hm : m i = as ++ bs)
    (hn : ∀ j, L j → n ∉ m j) (hhead : ∀ j, head j ≠ n) :
    Rings (listAddBetween l n (as.getLastD (head i)) (bs.headD (head i))) L head
    (update m i (as ++ n :: bs)) := by
  have hnew : ∀ j, L j → n ∉ head j :: m j := fun j hj => by simp [(hhead j).symm, hn j hj]
  refine ⟨fun j hj => ?_, h.inj, fun j k => ?_⟩
  · rcases eq_or_ne j i with rfl | hij
    · rw [update_self]
      exact listAddBetween_isRing (hm ▸ h.ring j hj) (hm ▸ hnew j hj)
    rw [update_of_ne hij]
    obtain ⟨hp, hq⟩ := mem_of_cut (head i) as bs
    rw [← hm] at hp hq
    exact listAddBetween_frame (h.ring j hj) (h.disjoint hj hi hij) hp hq (hnew j hj)
  · have happart := h.apart j k
    rcases eq_or_ne k i with rfl | hki
    · rw [hm] at happart
      simp_all
    · rwa [update_of_ne hki]

/-- **`list_add` and `list_add_tail` of a node that is in no list.** -/
theorem Rings.add (h : Rings l L head m) (hi : L i) (hm : m i = as ++ bs)
    (hn : ∀ j, L j → n ∉ m j) (hhead : ∀ j, head j ≠ n) :
    Rings (listAdd l (as.getLastD (head i)) n) L head (update m i (as ++ n :: bs)) ∧
      Rings (listAddTail l (bs.headD (head i)) n) L head (update m i (as ++ n :: bs)) := by
  have heq := listAdd_eq (hm ▸ h.ring i hi) n
  rw [heq.1, heq.2]
  exact ⟨h.insert hi hm hn hhead, h.insert hi hm hn hhead⟩

theorem Rings.newHead (h : Rings l L head m) :
    Rings (listNodeInit l (head i)) (fun j => j = i ∨ L j) head (update m i []) := by
  refine ⟨fun j hj => ?_, h.inj, fun j k => ?_⟩
  · by_cases hji : j = i
    · rw [hji, update_self]
      exact listNodeInit_isRing l (head i)
    rw [update_of_ne hji]
    have hj : L j := hj.resolve_left hji
    refine listNodeInit_frame (h.ring j hj) ?_
    rw [mem_cons, not_or]
    exact ⟨fun heq => hji (h.inj i j heq).symm, h.apart i j⟩
  · by_cases hki : k = i
    · rw [hki, update_self]
      exact not_mem_nil
    · rw [update_of_ne hki]
      exact h.apart j k

/-- The walk that deletes every node it visits. -/
theorem Rings.delEach (hi : L i) :
    ∀ {xs : List ν} {l : Links ν} {m : ι → List ν}, Rings l L head m → m i = xs →
    ∃ l', (∀ fuel, xs.length < fuel → listForEachSafe (head i) listDel fuel l (l.next (head i))
      (l.next (l.next (head i))) = some (xs, l')) ∧ Rings l' L head (update m i []) := by
  intro xs
  induction xs with
  | nil =>
    intro l m h hm
    refine ⟨l, fun fuel hfuel => ?_, by rwa [update_eq_self_iff.2 hm.symm]⟩
    obtain ⟨fuel, rfl⟩ := Nat.exists_eq_add_of_lt hfuel
    have hnext := (hm ▸ h.ring i hi).next_head
    simp [listForEachSafe, hnext]
  | cons x xs ih =>
    intro l m h hm
    have hx : x ∈ m i := by simp [hm]
    have hr := hm ▸ h.ring i hi
    have hdel := h.del hi hx
    rw [hm, erase_cons_head] at hdel
    obtain ⟨l', hrun, hl'⟩ := ih hdel (update_self ..)
    rw [update_idem] at hl'
    refine ⟨l', fun fuel hfuel => ?_, hl'⟩
    obtain ⟨fuel, rfl⟩ := Nat.exists_eq_add_of_lt hfuel
    -- the node saved before the deletion is the first one after it
    have hnext : l.next x = (listDel l x).next (head i) := by
      have hfirst := (hdel.ring i hi).next_head
      rw [update_self] at hfirst
      exact (@IsRing.next_mem _ _ _ _ [] _ hr).trans hfirst.symm
    have hne : x ≠ head i := fun he => h.apart i i (he ▸ hx)
    rw [hr.next_head, headD_cons, listForEachSafe, if_neg hne, hnext, hrun _ (by simp; omega)]
    rfl

/-- **The lists of `list.h` are sequences.**  `list_add` and `list_add_tail` insert, relative to the
head or to a member; `list_del` takes a member out and leaves it linked to itself, so that it does
nothing the second time; `list_move` does both; the safe walk visits every member once when its body
deletes them.  Every other list is as it was. -/
theorem lists_represent_sequences (h : Rings l L head m) (hi : L i) :
    (∀ as bs n, m i = as ++ bs → (∀ j, L j → n ∉ m j) → (∀ j, head j ≠ n) →
      Rings (listAdd l (as.getLastD (head i)) n) L head (update m i (as ++ n :: bs)) ∧
        Rings (listAddTail l (bs.headD (head i)) n) L head (update m i (as ++ n :: bs))) ∧
    (∀ n ∈ m i, Rings (listDel l n) L head (update m i ((m i).erase n)) ∧
    IsRing (listDel l n) n [] ∧
      listDel (listDel l n) n = listDel l n ∧
      ∀ j as bs, L j → update m i ((m i).erase n) j = as ++ bs →
        Rings (listMove l (as.getLastD (head j)) n) L head
        (update (update m i ((m i).erase n)) j (as ++ n :: bs))) ∧
    ∃ l', (∀ fuel, (m i).length < fuel → listForEachSafe (head i) listDel fuel l (l.next (head i))
      (l.next (l.next (head i))) = some (m i, l')) ∧ Rings l' L head (update m i []) := by
  refine ⟨fun as bs n => h.add hi, fun n hn =>
    ⟨h.del hi hn, listDel_alone l n, ?_, fun j as bs hj hm => ?_⟩, h.delEach hi rfl⟩
  · rw [listDel, listDelEntry_of_alone (listDel_alone l n)]
    simp [listDel, listNodeInit]
  · exact ((h.delEntry hi hn).add hj hm (fun _ => h.notMem_erase hi hn) fun k he =>
      h.apart k i (he ▸ hn)).1

theorem lists_represent_sequences_two :
    ∃ l', listForEachSafe 0 listDel 3 (listAddTail (listAdd ⟨id, id⟩ 0 1) 0 2) 1 2 =
    some ([1, 2], l') ∧
      Rings l' (fun _ : Unit => True) (fun _ => 0) (fun _ => []) := by
  have hempty : IsRing ⟨id, id⟩ 0 ([] ++ []) := ⟨⟨rfl, rfl, trivial⟩, by simp⟩
  have hrings : Rings (listAdd ⟨id, id⟩ 0 1) (fun _ : Unit => True) (fun _ => 0) (fun _ => [1]) :=
    ⟨fun _ _ => listAdd_isRing hempty (by simp), by simp, by simp⟩
  have hadd := (lists_represent_sequences hrings (i := ()) trivial).1 [1] [] 2 rfl (by simp)
    (by simp)
  obtain ⟨l', hrun, hleft⟩ := (lists_represent_sequences hadd.2 (i := ()) trivial).2.2
  exact ⟨l', hrun 3 (by decide), hleft⟩

end Rings

end Libk
end Monolith
