import Mathlib.Tactic.Ring

/-!
# `dev/rtc.c`: the time of the clock

`rtc_read` takes the date from the registers of the clock and counts the seconds from 1970 on.
Those of the years before are a closed formula in `int`, which is right up to 2038
(`rtc_read_epoch`) and overflows from 2039 on.
-/

namespace Monolith.Rtc

open List

def bcdToBin (bcd : BitVec 8) : BitVec 8 := (bcd >>> 4) * 10 + (bcd &&& 0xf)

def isLeapYear (y : Nat) : Bool := y % 4 = 0 ∧ (y % 100 ≠ 0 ∨ y % 400 = 0)

def daysPerMonth : List Nat := [31, 28, 31, 30, 31, 30, 31, 31, 30, 31, 30, 31]

/-- `y_day` after the loop; there is no result past the end of the table. -/
def yDay (leap : Bool) (month : Nat) : Option Nat :=
  ((range' 1 (month - 1)).mapM fun m => if m = 2 ∧
    leap then some 29 else daysPerMonth[m - 1]?).map sum

/-- An addition in `int`; there is no result if it overflows, or the number that is added has. -/
def addInt (a b : Int) : Option Int :=
  if -2 ^ 31 ≤ min b (a + b) ∧ max b (a + b) < 2 ^ 31 then some (a + b) else none

/-- The part of the sum that is an `int`. -/
def yearSeconds (year : Int) : Option Int :=
  [(year + 299).tdiv 400 * 86400, -((year - 1).tdiv 100 * 86400), (year - 69).tdiv 4 * 86400,
    (year - 70) * 31536000].foldlM addInt 0

/-- `rtc_read`, with the registers of the clock. -/
def rtcRead (cmos : BitVec 8 → BitVec 8) (centuryRegister : BitVec 8) : Option Int := do
  let read (r : BitVec 8) := (bcdToBin (cmos r)).toNat
  let year := if centuryRegister ≠ 0 then (read centuryRegister * 100 + read 0x09) % 2 ^ 16
    else if 70 ≤ read 0x09 then 1900 + read 0x09 else 2000 + read 0x09
  let days ← yDay (isLeapYear year) (read 0x08)
  let seconds ← yearSeconds ((year + (2 ^ 16 - 1900)) % 2 ^ 16 : Nat)
  pure (seconds + (days + (read 0x07 - 1)) * 86400 + read 0x04 * 3600 + read 0x02 * 60 + read 0x00)

/-! ## The calendar -/

structure Instant where
  (year month day hours minutes seconds : Nat)

def leap (year : Nat) : Bool := 4 ∣ year ∧ ¬100 ∣ year ∨ 400 ∣ year

def monthLength (leap : Bool) (month : Nat) : Nat :=
  if month = 2 then if leap then 29 else 28 else if month ∈ [4, 6, 9, 11] then 30 else 31

namespace Instant

variable (d : Instant)

abbrev Valid :
    Prop := (1 ≤ d.month ∧ d.month ≤ 12) ∧ (1 ≤ d.day ∧ d.day ≤ monthLength (leap d.year) d.month) ∧
  d.hours < 24 ∧ d.minutes < 60 ∧ d.seconds < 60

/-- The seconds since the start of 1970. -/
def epoch : Nat :=
  (((range' 1970 (d.year - 1970)).map fun y => if leap y then 366 else 365).sum +
    ((range' 1 (d.month - 1)).map (monthLength (leap d.year))).sum + (d.day - 1)) * 86400 +
    d.hours * 3600 + d.minutes * 60 + d.seconds

def registers (century : BitVec 8) : List (BitVec 8 × Nat) :=
  [(0x00, d.seconds), (0x02, d.minutes), (0x04, d.hours), (0x07, d.day), (0x08, d.month),
    (0x09, d.year % 100), (century, d.year / 100)]

def toBcd (n : Nat) : BitVec 8 := .ofNat 8 (n / 10 * 16 + n % 10)

/-- A clock, with the century in register 0x32. -/
def clock (r : BitVec 8) : BitVec 8 := toBcd (((d.registers 0x32).lookup r).getD 0)

end Instant

open Instant

theorem bcdToBin_toBcd : ∀ n < 100, (bcdToBin (toBcd n)).toNat = n := by decide +kernel

theorem isLeapYear_eq (y : Nat) : isLeapYear y = leap y := by
  rw [isLeapYear, leap, decide_eq_decide]
  omega

theorem yDay_eq :
    ∀ leap, ∀ m ≤ 12, yDay leap m = some ((range' 1 (m - 1)).map (monthLength leap)).sum := by
  decide +kernel

theorem yearSeconds_eq :
    ∀ y < 2039, 1970 ≤ y → yearSeconds ((y + (2 ^ 16 - 1900)) % 2 ^ 16 : Nat) = some
      (((range' 1970 (y - 1970)).map fun y => if leap y then 366 else 365).sum * 86400 : Nat) := by
  decide +kernel

theorem yearSeconds_overflow : ∀ y < 2100, 2039 ≤ y →
    yearSeconds ((y + (2 ^ 16 - 1900)) % 2 ^ 16 : Nat) = none := by
  decide +kernel

/-- **The seconds since the start of 1970**, up to the end of 2038; from 2039 on the sum
overflows. -/
theorem rtc_read_epoch {cmos : BitVec 8 → BitVec 8} {century : BitVec 8} {d : Instant}
    (hd : d.Valid) (hyear : 1970 ≤ d.year ∧ d.year ≤ 2099) (hcentury : century ≠ 0)
    (h : ∀ x ∈ d.registers century, cmos x.1 = toBcd x.2) :
    rtcRead cmos century = if d.year ≤ 2038 then some (d.epoch : Int) else none := by
  obtain ⟨hmonth, hday, htime⟩ := hd
  have hlen : monthLength (leap d.year) d.month ≤ 31 := by
    rw [monthLength]
    split_ifs <;> omega
  have hread : ∀ x ∈ d.registers century, (bcdToBin (cmos x.1)).toNat = x.2 := by
    intro x hx
    rw [h x hx, bcdToBin_toBcd]
    simp only [Instant.registers, mem_cons, not_mem_nil, or_false] at hx
    rcases hx with rfl | rfl | rfl | rfl | rfl | rfl | rfl <;> dsimp only <;> omega
  simp only [Instant.registers, forall_mem_cons] at hread
  obtain ⟨hs, hmin, hh, hdd, hm, hy, hc, -⟩ := hread
  have hfull : (d.year / 100 * 100 + d.year % 100) % 2 ^ 16 = d.year := by omega
  simp only [rtcRead, hs, hmin, hh, hdd, hm, hy, hc, if_pos hcentury, hfull, yDay_eq _ _ hmonth.2,
    isLeapYear_eq, Option.bind_eq_bind, Option.bind_some, Option.pure_def]
  split_ifs with hlast
  · simp only [yearSeconds_eq d.year (by omega) hyear.1, Option.bind_eq_bind, Option.bind_some,
      Option.pure_def, Instant.epoch, Option.some_inj]
    omega
  · rw [yearSeconds_overflow d.year (by omega) (by omega), Option.bind_none]

/-- Noon of a leap day. -/
theorem rtc_read_epoch_leap : rtcRead (clock ⟨2024, 2, 29, 12, 0, 0⟩) 0x32 = some 1709208000 :=
  @rtc_read_epoch (clock ⟨2024, 2, 29, 12, 0, 0⟩) 0x32 ⟨2024, 2, 29, 12, 0, 0⟩ (by decide)
    (by decide) (by decide)
    (by decide)

/-- **On the first day of 2039 the sum overflows.** -/
theorem rtc_read_overflow : Valid ⟨2039, 1, 1, 0, 0, 0⟩ ∧
    (∀ x ∈ registers ⟨2039, 1, 1, 0, 0, 0⟩ 0x32, clock ⟨2039, 1, 1, 0, 0, 0⟩ x.1 = toBcd x.2) ∧
    rtcRead (clock ⟨2039, 1, 1, 0, 0, 0⟩) 0x32 = none := by
  decide +kernel

end Monolith.Rtc
