import Mathlib.Data.BitVec
import Mathlib.Tactic.Ring

/-!
# `libk/vsprintf.c`: `num_to_str`

The digits of a number are taken from its negative, which exists for every `int64_t`, and collected
in 64 bytes.  For every base from 3 on these are enough, also for the sign, and what is written is
the number as one writes it, after the blanks that fill it up to the width (`numToStr_eq`).
-/

namespace Monolith.Libk

open List

def flagSigned : BitVec 32 := 1

def flagZero : BitVec 32 := 2

def digits : List Char := "0123456789abcdef".toList

/-- The `do` loop of `num_to_str`, with room for so many characters in `tmp_str`.  The last one
written is in front. -/
def digitLoop (base : Int) : Nat → Int → List Char → Option (List Char)
  | 0, _, _ => none
  | room + 1, negativeNum, tmpStr => do
    let digit ← digits[(-negativeNum.tmod base).toNat]?
    let negativeNum := negativeNum.tdiv base
    if negativeNum = 0 then some (digit :: tmpStr)
    else digitLoop base room negativeNum (digit :: tmpStr)

/-- `num_to_str`: what is written to `buf`.  `none` when an index is outside its array. -/
def numToStr (num : BitVec 64) (base : Int) (flags : BitVec 32) (padding : Int) :
    Option (List Char) :=
  if base < 2 ∨ 16 < base then some []
  else do
    let tmpStr ← digitLoop base 64 (if num.toInt < 0 then num.toInt else -num.toInt) []
    let tmpStr ← if num.toInt < 0 ∧ flags &&& flagSigned ≠ 0 then
        if tmpStr.length < 64 then some ('-' :: tmpStr) else none
      else some tmpStr
    some (replicate (padding - tmpStr.length).toNat (if flags &&& flagZero ≠ 0 then '0' else ' ') ++
    tmpStr)

/-- A number as one writes it: a minus sign if it is negative, and no zeros in front. -/
def representation (base : Nat) (n : Int) : List Char :=
  (if n < 0 then ['-'] else []) ++ base.toDigits n.natAbs

theorem digits_eq : ∀ d < 16, digits[d]? = some d.digitChar := by decide

section

variable {base k room : Nat} {tmpStr : List Char} (hlow : 2 ≤ base) (hhigh : base ≤ 16)

include hlow hhigh

theorem digitLoop_step :
    digitLoop base (room + 1) (-k) tmpStr = if k < base then some (k.digitChar :: tmpStr)
    else digitLoop base room (-(k / base : Nat)) ((k % base).digitChar :: tmpStr) := by
  have hmod : (-(-(k : Int)).tmod base).toNat = k % base := by
    rw [Int.neg_tmod, neg_neg, ← Int.ofNat_tmod, Int.toNat_natCast]
  have hdiv : (-(k : Int)).tdiv base = -(k / base : Nat) := by rw [Int.neg_tdiv, Int.ofNat_tdiv]
  rw [digitLoop, hmod, hdiv, digits_eq _ ((Nat.mod_lt k (by omega)).trans_le hhigh)]
  by_cases hlt : k < base
  · simp [hlt, Nat.div_eq_of_lt hlt, Nat.mod_eq_of_lt hlt]
  · have hpos := Nat.div_pos (not_lt.1 hlt) (by omega)
    simp [hlt, hpos.ne', -Int.natCast_ediv]

/-- The loop puts the digits of the number in front of what was there. -/
theorem digitLoop_eq (hk : k < base ^ (room + 1)) :
    digitLoop base (room + 1) (-k) tmpStr = some (base.toDigits k ++ tmpStr) := by
  induction room generalizing k tmpStr with
  | zero => simp_all [digitLoop_step hlow hhigh, Nat.toDigits_of_lt_base]
  | succ room ih =>
    rw [digitLoop_step hlow hhigh, Nat.toDigits_eq_if hlow]
    split_ifs
    · rfl
    · rw [ih, append_assoc, singleton_append]
      rwa [Nat.div_lt_iff_lt_mul (by omega)]

end

/-- **Signed numbers are written as they are.**  The base may be any from 3 to 16; the most negative
number has 65 characters in base 2. -/
theorem numToStr_eq (num : BitVec 64) {base : Nat} (hlow : 3 ≤ base) (hhigh : base ≤ 16)
    {flags : BitVec 32} (hsigned : flags &&& flagSigned ≠ 0) (hzero : flags &&& flagZero = 0)
    (w : Nat) : ∃ out, numToStr num base flags w = some out ∧
    out.length = max w (representation base num.toInt).length ∧
      out = replicate (w - (representation base num.toInt).length) ' ' ++ representation base
      num.toInt := by
  have hneg : (if num.toInt < 0 then num.toInt else -num.toInt) = -(num.toInt.natAbs : Int) := by
    split_ifs <;> omega
  have hbound : num.toInt.natAbs < base ^ 63 := by
    have hle := num.le_toInt
    have hlt := num.toInt_lt
    have hpow : 3 ^ 63 ≤ base ^ 63 := Nat.pow_le_pow_left hlow 63
    omega
  have hlen := (Nat.length_toDigits_le_iff (by omega) (by decide)).2 hbound
  have hloop := @digitLoop_eq base num.toInt.natAbs 63 [] (by omega) hhigh
    (hbound.trans_le (Nat.pow_le_pow_right (by omega) (by decide)))
  have hout : numToStr num base flags w =
      some (replicate (w - (representation base num.toInt).length) ' ' ++
      representation base num.toInt) := by
    rw [numToStr, if_neg (by omega), hneg, hloop, append_nil, Option.bind_eq_bind, Option.bind_some,
      representation]
    by_cases hnum : num.toInt < 0
    · rw [if_pos ⟨hnum, hsigned⟩, if_pos (Nat.lt_succ_of_le hlen), if_pos hnum]
      simp [hzero]
    · simp [hnum, hzero]
  refine ⟨_, hout, ?_, rfl⟩
  rw [length_append, length_replicate]
  omega

theorem numToStr_eq_least :
    numToStr 0x8000000000000000 10 flagSigned 22 = some "  -9223372036854775808".toList := by
  obtain ⟨out, hout, -, rfl⟩ :=
    @numToStr_eq 0x8000000000000000 10 (by decide) (by decide) flagSigned (by decide) (by decide) 22
  exact hout.trans (by decide +kernel)

end Monolith.Libk
