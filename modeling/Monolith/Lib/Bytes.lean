import Mathlib.Tactic.Ring

/-!
# Memory as bytes

A memory gives every address a byte.  Numbers of `k` bytes are loaded and stored with the least
significant byte first.

* `load_congr`: a load sees the `k` bytes it loads, and no other.
* `load_store`: what was stored is loaded again, up to its size.
* `load_store_apart`, `same_fill`: a store or a fill elsewhere is not seen.
* `take_copy`: what was copied to the beginning of a buffer is found there.
-/

namespace Bytes

/-- The number in the `k` bytes at `a`. -/
def load (m : Nat → BitVec 8) : Nat → Nat → Nat
  | 0, _ => 0
  | k + 1, a => (m a).toNat + 256 * load m k (a + 1)

/-- The memory after `v` is stored in the `k` bytes at `a`. -/
def store (m : Nat → BitVec 8) : Nat → Nat → Nat → Nat → BitVec 8
  | 0, _, _ => m
  | k + 1, a, v => fun x => if x = a then BitVec.ofNat 8 v else store m k (a + 1) (v / 256) x

/-- The memory after each of the `k` bytes at `a` is set to `b`. -/
def fill (m : Nat → BitVec 8) (k a : Nat) (b : BitVec 8) : Nat → BitVec 8 :=
  fun x => if a ≤ x ∧ x < a + k then b else m x

/-- Two memories have the same `k` bytes at `a`. -/
def Same (m m' : Nat → BitVec 8) (k a : Nat) : Prop := ∀ x, a ≤ x → x < a + k → m' x = m x

variable {m m' m'' : Nat → BitVec 8} {k l a b : Nat} {v : Nat}

theorem Same.refl (m : Nat → BitVec 8) (k a : Nat) : Same m m k a := fun _ _ _ => rfl

theorem Same.trans (h : Same m m' k a) (h' : Same m' m'' k a) : Same m m'' k a :=
  fun x hx hx' => (h' x hx hx').trans (h x hx hx')

theorem Same.mono (h : Same m m' k a) (hab : a ≤ b) (hl : b + l ≤ a + k) : Same m m' l b :=
  fun x hx hx' => h x (by omega) (by omega)

theorem load_congr (h : Same m m' k a) : load m' k a = load m k a := by
  induction k generalizing a with
  | zero => rfl
  | succ k ih => rw [load, load, h a (Nat.le_refl a) (by omega), ih (h.mono (by omega) (by omega))]

theorem load_lt (m : Nat → BitVec 8) (k a : Nat) : load m k a < 256 ^ k := by
  induction k generalizing a with
  | zero => exact Nat.one_pos
  | succ k ih =>
    have := ih (a + 1)
    rw [load]
    omega

theorem store_succ (m : Nat → BitVec 8) (k a v x : Nat) : store m (k + 1) a v x =
    if x = a then BitVec.ofNat 8 v else store m k (a + 1) (v / 256) x := rfl

theorem store_of_notMem {v x : Nat} (hx : x < a ∨ a + k ≤ x) : store m k a v x = m x := by
  induction k generalizing a v with
  | zero => rfl
  | succ k ih =>
    rw [store_succ, if_neg (by omega)]
    exact ih (by omega)

theorem same_store (h : a + k ≤ b ∨ b + l ≤ a) : Same m (store m k a v) l b :=
  fun x hx hx' => store_of_notMem (by omega)

theorem same_fill {c : BitVec 8} (h : a + k ≤ b ∨ b + l ≤ a) : Same m (fill m k a c) l b :=
  fun x hx hx' => if_neg (by omega)

@[simp] theorem load_store (m : Nat → BitVec 8) (k a v : Nat) :
    load (store m k a v) k a = v % 256 ^ k := by
  induction k generalizing a v with
  | zero => rw [load, Nat.pow_zero, Nat.mod_one]
  | succ k ih =>
    -- the upper bytes are those of the smaller store behind the first byte
    have hrest : load (store m (k + 1) a v) k (a + 1) = load (store m k (a + 1) (v / 256)) k
        (a + 1) := by
      refine load_congr fun x hx _ => ?_
      rw [store_succ, if_neg (by omega)]
    have hfirst : (store m (k + 1) a v a).toNat = v % 256 := by
      rw [store_succ, if_pos rfl, BitVec.toNat_ofNat]
    rw [load, hrest, hfirst, ih, pow_succ, mul_comm (256 ^ k), Nat.mod_mul]

theorem load_store_apart (h : a + k ≤ b ∨ b + l ≤ a) : load (store m k a v) l b = load m l b :=
  load_congr (same_store h)

/-! ## Buffers -/

/-- The buffer after the bytes `xs` are copied to its beginning. -/
def copy (m : Nat → BitVec 8) (xs : List (BitVec 8)) : Nat → BitVec 8 := fun x => xs[x]?.getD (m x)

/-- The first `k` bytes of a buffer. -/
def take (m : Nat → BitVec 8) (k : Nat) : List (BitVec 8) := (List.range k).map m

@[simp] theorem take_copy (m : Nat → BitVec 8) (xs : List (BitVec 8)) :
    take (copy m xs) xs.length = xs := by
  refine List.ext_getElem (by simp [take]) fun x hx hx' => ?_
  simp [take, copy, hx']

end Bytes
