import Mathlib.Data.List.Induction

/-!
# Forests of tables

A memory of tables, each a row of words; a word of a table may point at another table.  A *walk*
starts at a root and follows one word after the other along a list of indices.  This is how a radix
tree is laid out in memory, several of them in one memory, and several roots may share the subtree
below one of their entries.

What makes such a memory a forest is a labelling of the tables by their *places*: the root that owns
the table, and the indices that lead to it.  The owner of the subtree below the entry `i` of the
root `r` is `home r i`, which is `r` itself unless the subtree is shared.  Places are all that is
needed to tell tables apart: a walk ends at a table labelled with where it went
(`Forest.walk_place`), so two walks to different places end at different tables, and a write to one
of them does not show at the other.

* `walk`, `entry` — the walk, and the word at its end.
* `Forest` — the invariant.
* `Forest.setLeaf`, `Forest.attach`, `Forest.detach`, `Forest.plant` — what keeps it: writing a word
  of a table at the last level, adding a table, taking one out, and adding a root.
-/

namespace TableForest

open Function List Option Prod

variable {φ ι ω : Type}

/-! ## Walks -/

/-- How words name tables. -/
structure Shape (φ ι ω : Type) where
  /-- The table that a word points at. -/
  child : ω → Option φ
  /-- The word of an entry that is not in use. -/
  zero : ω
  /-- Such an entry points nowhere. -/
  child_zero : child zero = none
  /-- How many words a walk follows before it is at a table of the last level. -/
  depth : Nat
  /-- The owner of the subtree below an entry of a root. -/
  home : φ → ι → φ

variable {S : Shape φ ι ω} {mem mem' : φ → ι → ω}

/-- Follow the words at the given indices. -/
def walk (S : Shape φ ι ω) (mem : φ → ι → ω) : φ → List ι → Option φ
  | f, [] => some f
  | f, i :: is => (S.child (mem f i)).bind fun g => walk S mem g is

@[simp] theorem walk_nil (f : φ) : walk S mem f [] = some f := rfl

theorem walk_cons (f : φ) (i : ι) (is : List ι) :
    walk S mem f (i :: is) = (S.child (mem f i)).bind fun g => walk S mem g is := rfl

theorem walk_append (f : φ) (is js : List ι) :
    walk S mem f (is ++ js) = (walk S mem f is).bind fun g => walk S mem g js := by
  induction is generalizing f with
  | nil => rfl
  | cons i is ih =>
    rw [cons_append, walk_cons, walk_cons, bind_assoc]
    exact congrArg _ (funext fun g => ih g)

/-- The word at the index `j` of the table that a walk leads to, or `zero` if there is none. -/
def entry (S : Shape φ ι ω) (mem : φ → ι → ω) (f : φ) (is : List ι) (j : ι) : ω :=
  match walk S mem f is with
  | some t => mem t j
  | none => S.zero

variable {f t r g r₀ h : φ} {is p : List ι} {i j : ι}

theorem entry_of_walk (h : walk S mem f is = some t) (j : ι) : entry S mem f is j = mem t j := by
  rw [entry, h]

theorem entry_of_none (h : walk S mem f is = none) (j : ι) : entry S mem f is j = S.zero := by
  rw [entry, h]

/-! ## Places -/

/-- Where the walk from the root `r` along `is` leads. -/
def Shape.place (S : Shape φ ι ω) (r : φ) : List ι → φ × List ι
  | [] => (r, [])
  | i :: is => (S.home r i, i :: is)

/-- The place one index further. -/
def Shape.next (S : Shape φ ι ω) (r : φ) (p : List ι) (i : ι) : φ × List ι :=
  if p = [] then (S.home r i, [i]) else (r, p ++ [i])

theorem Shape.next_of_ne (hp : p ≠ []) (i : ι) : S.next r p i = (r, p ++ [i]) := by
  rw [Shape.next, if_neg hp]

/-- Where the owner of the subtree is `r`, the next place is the plain one. -/
theorem Shape.next_of_home (h : p = [] → S.home r i = r) : S.next r p i = (r, p ++ [i]) := by
  by_cases hp : p = []
  · rw [Shape.next, if_pos hp, h hp, hp, nil_append]
  · exact S.next_of_ne hp i

theorem Shape.next_snd (r : φ) (p : List ι) (i : ι) : (S.next r p i).2 = p ++ [i] := by
  by_cases hp : p = []
  · rw [Shape.next, if_pos hp, hp, nil_append]
  · rw [S.next_of_ne hp]

/-- **The invariant**: the tables are labelled with their places. -/
structure Forest (S : Shape φ ι ω) (mem : φ → ι → ω) (lab : φ → Option (φ × List ι)) : Prop where
  /-- A table with no indices behind it is a root. -/
  root : ∀ f r, lab f = some (r, []) → f = r
  /-- No table is below the last level. -/
  short : ∀ f r p, lab f = some (r, p) → p.length ≤ S.depth
  /-- A word above the last level that points at a table points at the right one. -/
  down : ∀ f r p i g, lab f = some (r, p) → p.length < S.depth → S.child (mem f i) = some g →
    lab g = some (S.next r p i)
  /-- Every table but a root is pointed at from where its label says. -/
  up : ∀ g r p i, lab g = some (r, p ++ [i]) →
    ∃ f, lab f = some (r, p) ∧ S.child (mem f i) = some g
  /-- A word above the last level is `zero` or points at a table. -/
  full : ∀ f r p i, lab f = some (r, p) → p.length < S.depth →
    mem f i = S.zero ∨ ∃ g, S.child (mem f i) = some g

variable {lab : φ → Option (φ × List ι)}

section

variable (F : Forest S mem lab)

include F

namespace Forest

/-- A walk that starts below a root stays below it. -/
theorem walk_below (hf : lab f = some (r, p)) (hp : p ≠ [])
    (hlen : p.length + is.length ≤ S.depth) (hw : walk S mem f is = some g) :
    lab g = some (r, p ++ is) := by
  induction is generalizing f p with
  | nil =>
    rw [walk_nil, some_inj] at hw
    rw [← hw, hf, append_nil]
  | cons i is ih =>
    rw [length_cons] at hlen
    rw [walk_cons, bind_eq_some_iff] at hw
    obtain ⟨h, hchild, hw⟩ := hw
    have hh := F.down f r p i h hf (by omega) hchild
    rw [S.next_of_ne hp] at hh
    have hg := ih hh (by simp) (by rw [length_append, length_singleton]; omega) hw
    rw [hg, append_assoc, singleton_append]

/-- **A walk ends at a table labelled with where it went.** -/
theorem walk_place (hr : lab r = some (r, [])) (hlen : is.length ≤ S.depth)
    (hw : walk S mem r is = some g) : lab g = some (S.place r is) := by
  rcases is with _ | ⟨i, _⟩
  · rw [walk_nil, some_inj] at hw
    rw [← hw, hr, Shape.place]
  rw [length_cons] at hlen
  rw [walk_cons, bind_eq_some_iff] at hw
  obtain ⟨h, hchild, hw⟩ := hw
  have hh := F.down r r [] i h hr (by simp only [length_nil]; omega) hchild
  have hg := F.walk_below hh (by simp) (by simp only [length_singleton]; omega) hw
  rw [hg, Shape.place, singleton_append]

/-- **A table is where its label says.** -/
theorem walk_of_lab (hg : lab g = some (r, p)) : walk S mem r p = some g := by
  induction p using reverseRecOn generalizing g with
  | nil => rw [F.root g r hg, walk_nil]
  | append_singleton p i ih =>
    obtain ⟨f, hf, hchild⟩ := F.up g r p i hg
    rw [walk_append, ih hf, bind_some, walk_cons, hchild, bind_some, walk_nil]

theorem root_of_lab (hg : lab g = some (r, p)) : lab r = some (r, []) := by
  induction p using reverseRecOn generalizing g with
  | nil =>
    have hroot := F.root g r hg
    rwa [hroot] at hg
  | append_singleton p i ih =>
    obtain ⟨f, hf, -⟩ := F.up g r p i hg
    exact ih hf

theorem home_of_lab (hg : lab g = some (r, i :: p)) : S.home r i = r := by
  have hplace := F.walk_place (F.root_of_lab hg) (F.short g r _ hg) (F.walk_of_lab hg)
  rw [hg, some_inj, mk.injEq] at hplace
  exact hplace.1.symm

theorem lab_inj (hf : lab f = some (r, p)) (hg : lab g = some (r, p)) : f = g :=
  some.inj ((F.walk_of_lab hf).symm.trans (F.walk_of_lab hg))

end Forest

/-! ## What walks do not see -/

/-- A walk among tables whose words are left alone. -/
theorem Forest.walk_agree {P : φ → List ι → Prop}
    (hP : ∀ r q j, P r q → P (S.next r q j).1 (S.next r q j).2)
    (hagree : ∀ h r q j, P r q → lab h = some (r, q) → q.length < S.depth →
    S.child (mem' h j) = S.child (mem h j))
    (hh : lab h = some (r, p)) (hPp : P r p) (hlen : p.length + is.length ≤ S.depth) :
    walk S mem' h is = walk S mem h is := by
  induction is generalizing h r p with
  | nil => rfl
  | cons j is ih =>
    rw [length_cons] at hlen
    rw [walk_cons, walk_cons, hagree h r p j hPp hh (by omega)]
    rcases hc : S.child (mem h j) with _ | g
    · rfl
    refine @ih (S.next r p j).1 g (S.next r p j).2 (F.down h r p j g hh (by omega) hc)
      (hP r p j hPp) ?_
    rw [S.next_snd, length_append, length_singleton]
    omega

section

variable (hagree : ∀ h r₁ q j, lab h = some (r₁, q) → q.length < S.depth → (S.next r₁ q j).1 ≠ r →
    S.child (mem' h j) = S.child (mem h j))

include hagree

/-- A walk reads only words that lead to its own place: it does not see a change to the part of the
memory that belongs to the root `r`. -/
theorem Forest.walk_frame (hr₀ : lab r₀ = some (r₀, [])) (hi : S.home r₀ i ≠ r)
    (hlen : (i :: is).length ≤ S.depth) : walk S mem' r₀ (i :: is) = walk S mem r₀ (i :: is) := by
  rw [length_cons] at hlen
  rw [walk_cons, walk_cons, hagree r₀ r₀ [] i hr₀ (by simp only [length_nil]; omega) hi]
  rcases hc : S.child (mem r₀ i) with _ | g
  · rfl
  have hg := F.down r₀ r₀ [] i g hr₀ (by simp only [length_nil]; omega) hc
  -- below the first index the walk is among the tables of one root
  refine F.walk_agree (P := fun r₁ q => r₁ ≠ r ∧ q ≠ []) (fun r₁ q j h => ?_)
    (fun h r₁ q j hP hh hq => ?_) hg
    ⟨hi, by simp⟩ (by simp only [length_singleton]; omega)
  · rw [S.next_of_ne h.2]
    exact ⟨h.1, by simp⟩
  · exact hagree h r₁ q j hh hq (by rw [S.next_of_ne hP.2]; exact hP.1)

/-- Nor does the word at the end of the walk, if the tables of other roots are left alone. -/
theorem Forest.entry_frame
    (hleaf : ∀ h r₁ q j, lab h = some (r₁, q) → q.length = S.depth → r₁ ≠ r → mem' h j = mem h j)
    (hr₀ : lab r₀ = some (r₀, [])) (hi : S.home r₀ i ≠ r) (hlen : (i :: is).length = S.depth)
    (j : ι) : entry S mem' r₀ (i :: is) j = entry S mem r₀ (i :: is) j := by
  have hwalk := F.walk_frame hagree hr₀ hi (Nat.le_of_eq hlen)
  rcases hw : walk S mem r₀ (i :: is) with _ | t
  · rw [entry_of_none hw, entry_of_none (hwalk.trans hw)]
  have ht := F.walk_place hr₀ (Nat.le_of_eq hlen) hw
  rw [entry_of_walk hw, entry_of_walk (hwalk.trans hw)]
  exact hleaf t _ _ j ht hlen hi

end

section

variable (hagree : ∀ h r q j, lab h = some (r, q) → q.length < S.depth → mem' h j = mem h j)

include hagree

/-- A change that leaves alone all words above the last level is seen by no walk. -/
theorem Forest.walk_congr
    (hr₀ : lab r₀ = some (r₀, [])) (hlen : is.length ≤ S.depth) :
    walk S mem' r₀ is = walk S mem r₀ is := by
  refine F.walk_agree (P := fun _ _ => True) (fun _ _ _ _ => trivial)
    (fun h r q j _ hh hq => ?_) hr₀ trivial
    (by simpa using hlen)
  rw [hagree h r q j hh hq]

/-- A table that is in use is not changed by writing to one that is not. -/
theorem Forest.congr :
    Forest S mem' lab where
  root := F.root
  short := F.short
  down f r p i g hf hp hc := by
    rw [hagree f r p i hf hp] at hc
    exact F.down f r p i g hf hp hc
  up g r p i hg := by
    obtain ⟨f, hf, hc⟩ := F.up g r p i hg
    have hlen := F.short g r _ hg
    rw [length_append, length_singleton] at hlen
    exact ⟨f, hf, by rw [hagree f r p i hf (by omega)]; exact hc⟩
  full f r p i hf hp := by
    rw [hagree f r p i hf hp]
    exact F.full f r p i hf hp

end

/-! ## Changing a forest -/

end

section Changes

variable [DecidableEq φ]

/-- Empty a table. -/
def clear (S : Shape φ ι ω) (mem : φ → ι → ω) (g : φ) : φ → ι → ω := update mem g fun _ => S.zero

theorem clear_self (g : φ) (j : ι) : clear S mem g g j = S.zero := by
  rw [clear, update_self]

theorem clear_of_ne (hne : h ≠ g) (j : ι) : clear S mem g h j = mem h j := by
  rw [clear, update_of_ne hne]

variable [DecidableEq ι] {r₁ : φ} {q : List ι}

/-- Write one word. -/
def write (mem : φ → ι → ω) (f : φ) (i : ι) (w : ω) : φ → ι → ω := update mem f (update (mem f) i w)

theorem write_self (f : φ) (i : ι) (w : ω) : write mem f i w f i = w := by
  rw [write, update_self, update_self]

theorem write_of_ne (hne : ¬ (h = f ∧ j = i)) (w : ω) : write mem f i w h j = mem h j := by
  rw [write]
  by_cases hf : h = f
  · rw [hf, update_self, update_of_ne fun hj => hne ⟨hf, hj⟩]
  · rw [update_of_ne hf]

theorem write_of_table_ne (hne : h ≠ f) (i j : ι) (w : ω) : write mem f i w h j = mem h j :=
  write_of_ne (fun hc => hne hc.1) w

/-! ### Writing at the last level -/

theorem write_leaf (ht : lab t = some (r, p)) (hp : p.length = S.depth) (i : ι) (w : ω) (j : ι)
    (hh : lab h = some (r₁, q)) (hq : q.length < S.depth) : write mem t i w h j = mem h j := by
  refine write_of_table_ne (fun he => ?_) i j w
  rw [he, ht, some_inj, mk.injEq] at hh
  rw [← hh.2] at hq
  omega

theorem Forest.setLeaf (F : Forest S mem lab) (ht : lab t = some (r, p)) (hp : p.length = S.depth)
    (i : ι) (w : ω) :
    Forest S (write mem t i w) lab := F.congr fun _ _ _ j => write_leaf ht hp i w j

theorem Forest.walk_setLeaf (F : Forest S mem lab) (ht : lab t = some (r, p))
    (hp : p.length = S.depth) (i : ι) (w : ω) (hr₀ : lab r₀ = some (r₀, []))
    (hlen : is.length ≤ S.depth) : walk S (write mem t i w) r₀ is = walk S mem r₀ is :=
  F.walk_congr (fun _ _ _ j => write_leaf ht hp i w j) hr₀ hlen

/-- **It changes one entry**, for all the roots that lead there. -/
theorem Forest.entry_setLeaf (F : Forest S mem lab) (ht : lab t = some (r, p))
    (hp : p.length = S.depth) (i : ι) (w : ω) (hr₀ : lab r₀ = some (r₀, []))
    (hlen : is.length ≤ S.depth) (j : ι) : entry S (write mem t i w) r₀ is j =
      if walk S mem r₀ is = some t ∧ j = i then w else entry S mem r₀ is j := by
  rw [entry, F.walk_setLeaf ht hp i w hr₀ hlen, entry]
  rcases hw : walk S mem r₀ is with _ | u
  · simp
  by_cases hu : u = t ∧ j = i
  · rw [if_pos ⟨congrArg some hu.1, hu.2⟩]
    simp [hu.1, hu.2, write_self]
  · rw [if_neg fun hc => hu ⟨some.inj hc.1, hc.2⟩]
    exact write_of_ne hu w

/-! ### Adding a table -/

/-- The memory once the empty table `g` has been entered into `f`, by the word `w`. -/
def attached (S : Shape φ ι ω) (mem : φ → ι → ω) (f : φ) (i : ι) (g : φ) (w : ω) : φ → ι → ω :=
  write (clear S mem g) f i w

section Attach

variable {f g r : φ} {p : List ι} {i : ι} {w : ω}

theorem attached_new (hfg : f ≠ g) (j : ι) : attached S mem f i g w g j = S.zero := by
  rw [attached, write_of_table_ne (Ne.symm hfg), clear_self]

theorem attached_entry : attached S mem f i g w f i = w := write_self f i w

theorem attached_of_ne (hg : h ≠ g) (hne : ¬ (h = f ∧ j = i)) :
    attached S mem f i g w h j = mem h j := by
  rw [attached, write_of_ne hne, clear_of_ne hg]

/-- **A table that is not in use may be entered into an entry that is not.** -/
theorem Forest.attach (F : Forest S mem lab) (hf : lab f = some (r, p)) (hp : p.length < S.depth)
    (hhome : p = [] → S.home r i = r) (hnone : S.child (mem f i) = none) (hg : lab g = none)
    (hw : S.child w = some g) :
    Forest S (attached S mem f i g w) (update lab g (some (r, p ++ [i]))) := by
  have hfg : f ≠ g := fun he => by rw [he, hg] at hf; cases hf
  have hold : ∀ h r₁ q, h ≠ g → update lab g (some (r, p ++ [i])) h = some (r₁, q) →
      lab h = some (r₁, q) := fun h r₁ q hh hl => by rwa [update_of_ne hh] at hl
  have hkeep : ∀ h l, lab h = some l → update lab g (some (r, p ++ [i])) h = some l := by
    intro h l hl
    rw [update_of_ne fun he => by rw [he, hg] at hl; cases hl]
    exact hl
  refine ⟨fun h r₁ hh => ?_, fun h r₁ q hh => ?_, fun h r₁ q j x hh hq hc => ?_,
    fun x r₁ q j hx => ?_, fun h r₁ q j hh hq => ?_⟩
  · by_cases he : h = g
    · rw [he] at hh
      simp at hh
    · exact F.root h r₁ (hold h r₁ [] he hh)
  · by_cases he : h = g
    · rw [he, update_self, some_inj, mk.injEq] at hh
      rw [← hh.2, length_append, length_singleton]
      omega
    · exact F.short h r₁ q (hold h r₁ q he hh)
  · by_cases he : h = g
    · simp [he, attached_new hfg, S.child_zero] at hc
    have hh' := hold h r₁ q he hh
    by_cases hfi : h = f ∧ j = i
    · rw [hfi.1, hf, some_inj, mk.injEq] at hh'
      rw [hfi.1, hfi.2, attached_entry, hw, some_inj] at hc
      rw [← hc, update_self, ← hh'.1, ← hh'.2, hfi.2, S.next_of_home hhome]
    · rw [attached_of_ne he hfi] at hc
      exact hkeep x _ (F.down h r₁ q j x hh' hq hc)
  · by_cases he : x = g
    · rw [he, update_self, some_inj, mk.injEq] at hx
      obtain ⟨hpq, hij⟩ := append_inj' hx.2 rfl
      rw [cons.injEq] at hij
      rw [← hx.1, ← hpq, ← hij.1, he]
      exact ⟨f, hkeep f _ hf, by rw [attached_entry, hw]⟩
    · obtain ⟨h, hh, hc⟩ := F.up x r₁ q j (hold x r₁ _ he hx)
      refine ⟨h, hkeep h _ hh, ?_⟩
      rw [attached_of_ne (fun hhg => by rw [hhg, hg] at hh; cases hh)
        (fun hfi => by rw [hfi.1, hfi.2, hnone] at hc; cases hc)]
      exact hc
  · by_cases he : h = g
    · rw [he, attached_new hfg]
      exact .inl rfl
    by_cases hfi : h = f ∧ j = i
    · rw [hfi.1, hfi.2, attached_entry]
      exact .inr ⟨g, hw⟩
    · rw [attached_of_ne he hfi]
      exact F.full h r₁ q j (hold h r₁ q he hh) hq

/-- Walks are as before, but for those that now end at the new table. -/
theorem Forest.walk_attach (F : Forest S mem lab) (hnone : S.child (mem f i) = none)
    (hg : lab g = none) (hw : S.child w = some g) (hfg : f ≠ g) (hh : lab h = some (r₁, q))
    (hlen : q.length + is.length ≤ S.depth) :
    walk S (attached S mem f i g w) h is = walk S mem h is ∨
      (walk S mem h is = none ∧ walk S (attached S mem f i g w) h is = some g) := by
  induction is generalizing h r₁ q with
  | nil => exact .inl rfl
  | cons j is ih =>
    rw [length_cons] at hlen
    have hhg : h ≠ g := fun he => by rw [he, hg] at hh; cases hh
    rw [walk_cons, walk_cons]
    by_cases hfi : h = f ∧ j = i
    · rw [hfi.1, hfi.2, attached_entry, hw, hnone, bind_some]
      rcases is with _ | ⟨_, is⟩
      · exact .inr ⟨rfl, rfl⟩
      -- the new table is empty: the walk goes no further
      rw [walk_cons, attached_new hfg, S.child_zero]
      exact .inl rfl
    · rw [attached_of_ne hhg hfi]
      rcases hc : S.child (mem h j) with _ | x
      · exact .inl rfl
      have hx := F.down h r₁ q j x hh (by omega) hc
      refine @ih x (S.next r₁ q j).1 (S.next r₁ q j).2 hx ?_
      rw [S.next_snd, length_append, length_singleton]
      omega

theorem Forest.entry_attach (F : Forest S mem lab) (hf : lab f = some (r, p))
    (hp : p.length < S.depth) (hnone : S.child (mem f i) = none) (hg : lab g = none)
    (hw : S.child w = some g) (hr₀ : lab r₀ = some (r₀, [])) (hlen : is.length = S.depth) (j : ι) :
    entry S (attached S mem f i g w) r₀ is j = entry S mem r₀ is j := by
  have hfg : f ≠ g := fun he => by rw [he, hg] at hf; cases hf
  rcases F.walk_attach hnone hg hw hfg hr₀
    (by simpa using Nat.le_of_eq hlen : [].length + is.length ≤ _) with
    heq | ⟨hold, hnew⟩
  · rcases hw₀ : walk S mem r₀ is with _ | _
    · rw [entry_of_none hw₀, entry_of_none (heq.trans hw₀)]
    have ht := F.walk_place hr₀ (Nat.le_of_eq hlen) hw₀
    rw [entry_of_walk hw₀, entry_of_walk (heq.trans hw₀), attached_of_ne]
    · intro he
      simp [he, hg] at ht
    intro hfi
    -- the walk ends at the last level, and `f` is above it
    rw [hfi.1, hf, some_inj] at ht
    rcases is with _ | ⟨_, _⟩
    · simp only [length_nil] at hlen; omega
    rw [Shape.place, mk.injEq] at ht
    rw [ht.2] at hp
    omega
  · rw [entry_of_none hold, entry_of_walk hnew, attached_new hfg]

end Attach

/-! ### Taking a table out -/

/-- What is left of a labelling without one table. -/
theorem eq_some_of_update_none {α β : Type} [DecidableEq α] {lab : α → Option β} {g h : α} {l : β}
    (hl : update lab g none h = some l) : h ≠ g ∧ lab h = some l := by
  by_cases he : h = g
  · simp [he] at hl
  · rw [update_of_ne he] at hl
    exact ⟨he, hl⟩

omit [DecidableEq φ] [DecidableEq ι] in
/-- A table is pointed at from one place only, unless roots share it. -/
theorem Forest.place_inj (F : Forest S mem lab) {r₁ : φ} {q : List ι} (hf : lab f = some (r, p))
    (hh : lab h = some (r₁, q)) (hone : p = [] → ∀ r', lab r' = some (r', []) → S.home r' i = r →
    r' = r)
    (hnext : S.next r₁ q j = (r, p ++ [i])) : h = f ∧ j = i := by
  have hpq := congrArg snd hnext
  rw [S.next_snd] at hpq
  obtain ⟨hpq, hij⟩ := append_inj' hpq rfl
  rw [cons.injEq] at hij
  have hr₁ : r₁ = r := by
    by_cases hq0 : q = []
    · rw [Shape.next, if_pos hq0, hij.1] at hnext
      rw [hq0, F.root h r₁ (hq0 ▸ hh)] at hh
      exact hone (hpq.symm.trans hq0) r₁ hh (congrArg fst hnext)
    · rw [S.next_of_ne hq0] at hnext
      exact congrArg fst hnext
  rw [hr₁, hpq] at hh
  exact ⟨F.lab_inj hh hf, hij.1⟩

/-- **A table without tables below it may be taken out** of its one entry. -/
theorem Forest.detach (F : Forest S mem lab) (hf : lab f = some (r, p)) (hp : p.length < S.depth)
    (hc : S.child (mem f i) = some g) (hhome : p = [] → S.home r i = r)
    (hone : p = [] → ∀ r', lab r' = some (r', []) → S.home r' i = r → r' = r)
    (hlast : p.length + 1 < S.depth → ∀ j, S.child (mem g j) = none) :
    Forest S (write mem f i S.zero) (update lab g none) := by
  have hg := F.down f r p i g hf hp hc
  rw [S.next_of_home hhome] at hg
  have hword h j x (hx : S.child (write mem f i S.zero h j) = some x) :
      ¬ (h = f ∧ j = i) ∧ S.child (mem h j) = some x := by
    by_cases hfi : h = f ∧ j = i
    · simp [hfi.1, hfi.2, write_self, S.child_zero] at hx
    · rw [write_of_ne hfi] at hx
      exact ⟨hfi, hx⟩
  refine ⟨fun h r₁ hh => F.root h r₁ (eq_some_of_update_none hh).2,
    fun h r₁ q hh => F.short h r₁ q (eq_some_of_update_none hh).2,
    fun h r₁ q j x hh hq hx => ?_, fun x r₁ q j hx => ?_, fun h r₁ q j hh hq => ?_⟩
  · obtain ⟨-, hh⟩ := eq_some_of_update_none hh
    obtain ⟨hfi, hx⟩ := hword h j x hx
    have hlx := F.down h r₁ q j x hh hq hx
    rw [update_of_ne]
    · exact hlx
    intro he
    rw [he, hg, some_inj] at hlx
    exact hfi (F.place_inj hf hh hone hlx.symm)
  · obtain ⟨hxg, hx⟩ := eq_some_of_update_none hx
    obtain ⟨h, hh, hcx⟩ := F.up x r₁ q j hx
    have hshort := F.short x r₁ _ hx
    rw [length_append, length_singleton] at hshort
    refine ⟨h, ?_, ?_⟩
    · rw [update_of_ne]
      · exact hh
      intro he
      rw [he, hg, some_inj, mk.injEq] at hh
      rw [← hh.2, length_append, length_singleton] at hshort
      simp [he, hlast (by omega) j] at hcx
    · rw [write_of_ne]
      · exact hcx
      intro hfi
      rw [hfi.1, hfi.2, hc, some_inj] at hcx
      exact hxg hcx.symm
  · obtain ⟨-, hh⟩ := eq_some_of_update_none hh
    by_cases hfi : h = f ∧ j = i
    · rw [hfi.1, hfi.2, write_self]
      exact .inl rfl
    · rw [write_of_ne hfi]
      exact F.full h r₁ q j hh hq

omit [DecidableEq ι] in
/-- A root with nothing of its own below it may be taken out. -/
theorem Forest.uproot (F : Forest S mem lab) (hr : lab r = some (r, []))
    (hempty : ∀ g i, lab g ≠ some (r, [i])) : Forest S mem (update lab r none) := by
  refine ⟨fun h r₁ hh => F.root h r₁ (eq_some_of_update_none hh).2,
    fun h r₁ q hh => F.short h r₁ q (eq_some_of_update_none hh).2,
    fun h r₁ q j x hh hq hx => ?_, fun x r₁ q j hx => ?_,
    fun h r₁ q j hh hq => F.full h r₁ q j (eq_some_of_update_none hh).2 hq⟩
  · have hlx := F.down h r₁ q j x (eq_some_of_update_none hh).2 hq hx
    rw [update_of_ne]
    · exact hlx
    intro he
    rw [he, hr, some_inj] at hlx
    have hp := congrArg snd hlx
    rw [S.next_snd] at hp
    simp at hp
  · obtain ⟨-, hx⟩ := eq_some_of_update_none hx
    obtain ⟨h, hh, hc⟩ := F.up x r₁ q j hx
    refine ⟨h, ?_, hc⟩
    rw [update_of_ne]
    · exact hh
    intro he
    rw [he, hr, some_inj, mk.injEq] at hh
    rw [← hh.1, ← hh.2] at hx
    exact hempty x j hx

/-! ### Adding a root -/

omit [DecidableEq ι] in
/-- **A table that is not in use may become a root**, whose entries are empty or those of another
root that shares the subtree below them. -/
theorem Forest.plant (F : Forest S mem lab) (hr : lab r = none) {row : ι → ω}
    (hrow : ∀ j, row j = S.zero ∨ ∃ r', lab r' = some (r', []) ∧ row j = mem r' j ∧
    S.home r j = S.home r' j) : Forest S (update mem r row) (update lab r (some (r, []))) := by
  have hold : ∀ h l, h ≠ r → update lab r (some (r, [])) h = some l → lab h = some l :=
    fun h l hh hl => by rwa [update_of_ne hh] at hl
  have hne : ∀ h l, lab h = some l → h ≠ r := fun h l hl he => by simp [he, hr] at hl
  have hkeep : ∀ h l, lab h = some l → update lab r (some (r, [])) h = some l :=
    fun h l hl => by rwa [update_of_ne (hne h l hl)]
  refine ⟨fun h r₁ hh => ?_, fun h r₁ q hh => ?_, fun h r₁ q j x hh hq hx => ?_,
    fun x r₁ q j hx => ?_, fun h r₁ q j hh hq => ?_⟩
  · by_cases he : h = r
    · rw [he, update_self, some_inj, mk.injEq] at hh
      rw [he, hh.1]
    · exact F.root h r₁ (hold h _ he hh)
  · by_cases he : h = r
    · rw [he, update_self, some_inj, mk.injEq] at hh
      rw [← hh.2]
      exact Nat.zero_le _
    · exact F.short h r₁ q (hold h _ he hh)
  · by_cases he : h = r
    · rw [he, update_self, some_inj, mk.injEq] at hh
      rw [he, update_self] at hx
      rw [← hh.1, ← hh.2, Shape.next, if_pos rfl]
      rw [← hh.2] at hq
      rcases hrow j with hz | ⟨r', hr', hw, hhome⟩
      · simp [hz, S.child_zero] at hx
      rw [hw] at hx
      have hlx := F.down r' r' [] j x hr' hq hx
      rw [Shape.next, if_pos rfl, ← hhome] at hlx
      exact hkeep x _ hlx
    · rw [update_of_ne he] at hx
      exact hkeep x _ (F.down h r₁ q j x (hold h _ he hh) hq hx)
  · have hxr : x ≠ r := by
      intro he
      rw [he, update_self] at hx
      simp at hx
    obtain ⟨h, hh, hc⟩ := F.up x r₁ q j (hold x _ hxr hx)
    exact ⟨h, hkeep h _ hh, by rwa [update_of_ne (hne h _ hh)]⟩
  · by_cases he : h = r
    · rw [he, update_self, some_inj, mk.injEq] at hh
      rw [← hh.2] at hq
      rw [he, update_self]
      rcases hrow j with hz | ⟨r', hr', hw, -⟩
      · exact .inl hz
      · rw [hw]
        exact F.full r' r' [] j hr' hq
    · rw [update_of_ne he]
      exact F.full h r₁ q j (hold h _ he hh) hq

end Changes

end TableForest
