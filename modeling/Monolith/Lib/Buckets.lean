import Mathlib.Data.List.Nodup
import Mathlib.Logic.Function.Basic
import Monolith.Lib.Chain

/-!
# Hash tables with linked lists

The cells of a memory hold links: there is a cell `head b` for the start of every bucket, and a cell
`link x` in every element for what is behind it.  The lists are walked along with a pointer to an
element, or with a pointer to the cell that the element was found in, which is what taking one out
needs.

* `search` and `unlink` are the two loops, with a bound on the number of rounds; `search_eq` and
  `unlink_eq_some` say what they do to a list that is shorter.
* `Buckets mem head link stop m` says that the bucket `b` has the members `m b`.  `Buckets.push`
  puts an element in front, and `Buckets.unlink` takes one out.
-/

namespace Hashed

open Function List

variable {ι κ β : Type} {xs : List ι} {n : Nat}

section Loops

variable [DecidableEq ι]

/-- The first element from `a` on for which `p` holds. -/
def search (next : ι → ι) (stop : ι) (p : ι → Bool) : Nat → ι → Option (Option ι)
  | 0, _ => none
  | n + 1, a =>
    if a = stop then some none else if p a then some (some a) else search next stop p n (next a)

theorem search_eq {next : ι → ι} {stop a : ι} {p : ι → Bool} (h : Chain next stop a xs)
    (hn : xs.length < n) : search next stop p n a = some (xs.find? p) := by
  induction xs generalizing a n with
  | nil =>
    cases n with
    | zero => omega
    | succ n => exact if_pos h
  | cons x xs ih =>
    obtain ⟨rfl, hstop, hrest⟩ := h
    rcases n with _ | _
    · omega
    rw [search, if_neg hstop, find?_cons]
    cases hp : p a with
    | true => rw [if_pos rfl]
    | false => exact ih hrest (Nat.lt_of_succ_lt_succ hn)

variable [DecidableEq κ]

/-- Taking `x` out of the list that starts in the cell `cur`. -/
def unlink (link : ι → κ) (stop x : ι) : Nat → κ → (κ → ι) → Option (κ → ι)
  | 0, _, _ => none
  | n + 1, cur, mem =>
    if mem cur = stop then some mem
    else if mem cur = x then some (update (update mem cur (mem (link x))) (link x) stop)
    else unlink link stop x n (link (mem cur)) mem

/-- **Taking out.**  Only the cells of the list change. -/
theorem unlink_eq_some {link : ι → κ} {stop x : ι} {cur : κ} {mem : κ → ι}
    (hlink : Injective link) (h : Chain (mem ∘ link) stop (mem cur) xs) (hnodup : xs.Nodup)
    (hcur : ∀ y ∈ xs, link y ≠ cur) (hn : xs.length < n) :
    ∃ mem', unlink link stop x n cur mem = some mem' ∧
    Chain (mem' ∘ link) stop (mem' cur) (xs.erase x) ∧
      ∀ c, c ≠ cur → (∀ y ∈ xs, c ≠ link y) → mem' c = mem c := by
  induction xs generalizing cur n with
  | nil =>
    cases n with
    | zero => omega
    | succ n => exact ⟨mem, if_pos h, h, fun _ _ _ => rfl⟩
  | cons y ys ih =>
    obtain ⟨hy, hstop, hrest⟩ := h
    obtain ⟨hnot, hnodup⟩ := nodup_cons.1 hnodup
    rcases n with _ | _
    · omega
    rcases eq_or_ne y x with rfl | hyx
    · refine ⟨_, by rw [unlink, if_neg (hy ▸ hstop), if_pos hy], ?_, fun c hc hys => ?_⟩
      · rw [erase_cons_head, update_of_ne (Ne.symm (hcur y mem_cons_self)), update_self]
        refine hrest.congr fun z hz => ?_
        have hzy : link z ≠ link y := fun heq => hnot (hlink heq ▸ hz)
        rw [comp_apply, update_of_ne hzy, update_of_ne (hcur z (mem_cons_of_mem y hz)), comp_apply]
      · rw [update_of_ne (hys y mem_cons_self), update_of_ne hc]
    · -- the rest is the list that starts in the cell of the first element
      have hcell : ∀ z ∈ ys, link z ≠ link y := fun z hz heq => hnot (hlink heq ▸ hz)
      have hcells : Chain (mem ∘ link) stop (mem (link y)) ys := hrest
      obtain ⟨mem', hmem', hchain, hframe⟩ := ih hcells hnodup hcell (Nat.lt_of_succ_lt_succ hn)
      have hstart : mem' cur = y := by
        rw [hframe cur (Ne.symm (hcur y mem_cons_self))
          fun z hz => Ne.symm (hcur z (mem_cons_of_mem y hz))]
        exact hy
      refine ⟨mem', ?_, ?_, fun c hc hys => ?_⟩
      · rwa [unlink, if_neg (hy ▸ hstop), if_neg (hy ▸ hyx), hy]
      · rw [erase_cons_tail (beq_eq_false_iff_ne.2 hyx ▸ Bool.false_ne_true), hstart]
        exact ⟨rfl, hstop, hchain⟩
      · exact hframe c (hys y mem_cons_self) fun z hz => hys z (mem_cons_of_mem y hz)

end Loops

/-- The bucket `b` has the members `m b`. -/
structure Buckets (mem : κ → ι) (head : β → κ) (link : ι → κ) (stop : ι) (m : β → List ι) :
    Prop where
  chain : ∀ b, Chain (mem ∘ link) stop (mem (head b)) (m b)
  nodup : ∀ b, (m b).Nodup
  /-- No element is in two buckets. -/
  unique : ∀ b c x, x ∈ m b → x ∈ m c → b = c

section Buckets

variable [DecidableEq κ] [DecidableEq β] {mem : κ → ι} {head : β → κ} {link : ι → κ} {stop x : ι}
  {m : β → List ι} {b : β}

theorem Buckets.push (h : Buckets mem head link stop m) (hhead : Injective head)
    (hlink : Injective link) (hapart : ∀ b x, head b ≠ link x) (hx : x ≠ stop)
    (hnew : ∀ c, x ∉ m c) :
    Buckets (update (update mem (link x) (mem (head b))) (head b) x) head link stop
    (update m b (x :: m b)) := by
  -- the cells of the other elements stay as they are
  have hcell : ∀ c, ∀ y ∈ m c, (update (update mem (link x) (mem (head b))) (head b) x ∘ link) y =
      (mem ∘ link) y := by
    intro c y hy
    have hyx : link y ≠ link x := fun heq => hnew c (hlink heq ▸ hy)
    rw [comp_apply, update_of_ne (Ne.symm (hapart b y)), update_of_ne hyx, comp_apply]
  refine ⟨fun c => ?_, fun c => ?_, fun c d y hc hd => ?_⟩
  · rcases eq_or_ne c b with rfl | hcb
    · rw [update_self, update_self]
      refine ((h.chain c).congr (hcell c)).push hx ?_
      rw [comp_apply, update_of_ne (Ne.symm (hapart c x)), update_self]
    · rw [update_of_ne hcb, update_of_ne fun heq => hcb (hhead heq), update_of_ne (hapart c x)]
      exact (h.chain c).congr (hcell c)
  · rcases eq_or_ne c b with rfl | hcb
    · rw [update_self]
      exact nodup_cons.2 ⟨hnew c, h.nodup c⟩
    · rw [update_of_ne hcb]
      exact h.nodup c
  · have hmem e (he : y ∈ update m b (x :: m b) e) : (y = x ∧ e = b) ∨ y ∈ m e := by
      rcases eq_or_ne e b with rfl | heb
      · rw [update_self] at he
        exact (mem_cons.1 he).imp_left fun heq => ⟨heq, rfl⟩
      · rw [update_of_ne heb] at he
        exact .inr he
    rcases hmem c hc with ⟨hyx, hcb⟩ | hc <;> rcases hmem d hd with ⟨hyx', hdb⟩ | hd
    · rw [hcb, hdb]
    · exact absurd hd (hyx ▸ hnew d)
    · exact absurd hc (hyx' ▸ hnew c)
    · exact h.unique c d y hc hd

/-- **An element is taken out** of its bucket. -/
theorem Buckets.unlink [DecidableEq ι] (h : Buckets mem head link stop m) (hhead : Injective head)
    (hlink : Injective link) (hapart : ∀ b x, head b ≠ link x) (hn : (m b).length < n) :
    ∃ mem', unlink link stop x n (head b) mem = some mem' ∧
      Buckets mem' head link stop (update m b ((m b).erase x)) := by
  obtain ⟨mem', hmem', hchain, hframe⟩ := unlink_eq_some (x := x) hlink (h.chain b) (h.nodup b)
    (fun y _ => Ne.symm (hapart b y)) hn
  refine ⟨mem', hmem', fun c => ?_, fun c => ?_, fun c d y hc hd => ?_⟩
  · rcases eq_or_ne c b with rfl | hcb
    · rwa [update_self]
    rw [update_of_ne hcb, hframe (head c) (fun heq => hcb (hhead heq)) fun y _ => hapart c y]
    refine (h.chain c).congr fun y hy => ?_
    refine hframe (link y) (Ne.symm (hapart b y)) fun z hz heq => ?_
    exact hcb (h.unique c b y hy (hlink heq ▸ hz))
  · rcases eq_or_ne c b with rfl | hcb
    · rw [update_self]
      exact (h.nodup c).erase x
    · rw [update_of_ne hcb]
      exact h.nodup c
  · have hmem e (he : y ∈ update m b ((m b).erase x) e) : y ∈ m e := by
      rcases eq_or_ne e b with rfl | heb
      · rw [update_self] at he
        exact mem_of_mem_erase he
      · rwa [update_of_ne heb] at he
    exact h.unique c d y (hmem c hc) (hmem d hd)

end Buckets

end Hashed
