import Mathlib.Data.BitVec

/-!
# `libk/string.c`: `memmove`

From a source above the destination `memmove` copies upwards, and reads each byte before it is
overwritten (`memmove_copies`).  For one below it is to copy downwards, but the index goes up there
as well and is one too small: the byte before the destination changes, and the last one is not
copied (`memmove_misses`).
-/

namespace Monolith.Libk

open Function BitVec

/-- A loop of `memmove`: `pdest[j] = psrc[j]`, where `j` is `index i` for `i` from 0 to `n - 1`. -/
def moveLoop (index : BitVec 64 → BitVec 64) (dest src : BitVec 64) (n : Nat)
    (m : BitVec 64 → BitVec 8) : BitVec 64 → BitVec 8 :=
  (List.range n).foldl
    (fun m i => update m (dest + index (.ofNat 64 i)) (m (src + index (.ofNat 64 i)))) m

def memmove (m : BitVec 64 → BitVec 8) (dest src : BitVec 64) (n : Nat) : BitVec 64 → BitVec 8 :=
  if dest < src then moveLoop id dest src n m else if src < dest then moveLoop
    (· - 1) dest src n m else m

variable {dest src : BitVec 64} {n : Nat}

theorem moveLoop_up (m : BitVec 64 → BitVec 8) (hlt : dest < src) (hn : src.toNat + n ≤ 2 ^ 64)
    (a : BitVec 64) :
    moveLoop id dest src n m a = if (a - dest).toNat < n then m (src + (a - dest)) else m a := by
  induction n generalizing a with
  | zero => rfl
  | succ n ih =>
    have hstep : moveLoop id dest src (n + 1) m = update (moveLoop id dest src n m)
        (dest + .ofNat 64 n)
        (moveLoop id dest src n m (src + .ofNat 64 n)) := by simp [moveLoop, List.range_succ]
    -- the byte that is read lies behind those that were written
    have hread : ¬(src + .ofNat 64 n - dest).toNat < n := by bv_omega
    rw [hstep, ih (by omega) (src + _), if_neg hread]
    rcases eq_or_ne a (dest + .ofNat 64 n) with rfl | ha
    · rw [update_self, BitVec.add_comm dest, BitVec.add_sub_cancel, if_pos (by bv_omega)]
    · have hlast : (a - dest).toNat < n + 1 ↔ (a - dest).toNat < n := by bv_omega
      simp only [update_of_ne ha, ih (by omega), hlast]

/-- A loop changes no byte but those it assigns to. -/
theorem moveLoop_of_ne {index : BitVec 64 → BitVec 64} {a : BitVec 64} (m : BitVec 64 → BitVec 8)
    (ha : ∀ i < n, a ≠ dest + index (.ofNat 64 i)) : moveLoop index dest src n m a = m a := by
  induction n with
  | zero => rfl
  | succ n ih =>
    have hstep : moveLoop index dest src (n + 1) m =
        update (moveLoop index dest src n m) (dest + index (.ofNat 64 n))
          (moveLoop index dest src n m (src + index (.ofNat 64 n))) := by
      simp [moveLoop, List.range_succ]
    rw [hstep, update_of_ne (ha n (by omega)), ih fun i hi => ha i (by omega)]

/-- **`memmove` of two regions of the address space** is right for every memory if and only if there
is nothing to copy or the copy does not go upwards. -/
theorem memmove_copies (hsrc : src.toNat + n ≤ 2 ^ 64) (hdest : dest.toNat + n ≤ 2 ^ 64) :
    (∀ m a, memmove m dest src n a = if (a - dest).toNat < n then m (src + (a - dest)) else m a) ↔
      n = 0 ∨ dest ≤ src := by
  refine ⟨fun h => ?_, fun h m a => ?_⟩
  · rw [or_iff_not_imp_left, ← BitVec.not_lt]
    intro hn hlt
    -- the last byte is not written, so a memory tells it from the one it is to be
    have hlast : ∀ i < n, dest + .ofNat 64 (n - 1) ≠ dest + (BitVec.ofNat 64 i - 1) := by
      intro i hi heq
      bv_omega
    have hcopy :=
      h (fun a => if a = dest + .ofNat 64 (n - 1) then 1 else 0) (dest + .ofNat 64 (n - 1))
    have hin : (dest + .ofNat 64 (n - 1) - dest).toNat < n := by bv_omega
    have hread : src + (dest + .ofNat 64 (n - 1) - dest) ≠ dest + .ofNat 64 (n - 1) := by
      intro heq
      bv_omega
    rw [memmove, if_neg (BitVec.lt_asymm hlt), if_pos hlt, moveLoop_of_ne _ hlast, if_pos hin,
      if_neg hread, if_pos rfl] at hcopy
    exact absurd hcopy (by decide)
  · rcases h with rfl | hle
    · simp [memmove, moveLoop]
    · rcases eq_or_ne dest src with rfl | hne
      · simp [memmove, BitVec.add_comm dest]
      · have hlt : dest < src := by bv_omega
        rw [memmove, if_pos hlt, moveLoop_up m hlt hsrc]

/-- Two bytes that overlap. -/
theorem memmove_copies_two : memmove (·.setWidth 8) 0x1000 0x1001 2 0x1001 = 2 :=
  ((memmove_copies (by decide) (by decide)).2 (.inr (by decide)) _ _).trans (by decide)

/-- One byte, from 0x1000 to 0x1001. -/
theorem memmove_misses : memmove (·.setWidth 8) 0x1001 0x1000 1 0x1001 ≠ 0 ∧
    memmove (·.setWidth 8) 0x1001 0x1000 1 0x1000 ≠ 0 := by decide

end Monolith.Libk
