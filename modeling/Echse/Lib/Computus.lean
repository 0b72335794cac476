/-
The date of Easter in the Gregorian calendar.

`easter` is the reckoning in whole-number divisions alone, without tables.  It goes by how far
the full moon comes after the 21st of March and how far Sunday comes after that, and
moves the two latest dates a week ahead.
-/
import Echse.Lib.Gregorian

namespace Computus

/-- How many days after the 21st of March the full moon is, before the two exceptions. -/
def moon (y : Nat) : Nat :=
  let b := y / 100
  (19 * (y % 19) + b - b / 4 - (b - (b + 8) / 25 + 1) / 3 + 15) % 30

/-- How many days after the day past the full moon Sunday is. -/
def sunday (y : Nat) : Nat :=
  (32 + 2 * (y / 100 % 4) + 2 * (y % 100 / 4) - moon y - y % 100 % 4) % 7

/-- The exceptions: 1 where Easter is a week ahead. -/
def ahead (y : Nat) : Nat := (y % 19 + 11 * moon y + 22 * sunday y) / 451

/-- The month and the day of Easter Sunday. -/
def easter (y : Nat) : Nat × Nat :=
  ((moon y + sunday y + 114 - 7 * ahead y) / 31, (moon y + sunday y + 114 - 7 * ahead y) % 31 + 1)

/-- Easter Sunday as a day counted from the start of March. -/
def march (y : Nat) : Nat := 22 + moon y + sunday y - 7 * ahead y

variable (y : Nat)

theorem moon_lt : moon y < 30 := Nat.mod_lt _ (by decide)

theorem sunday_lt : sunday y < 7 := Nat.mod_lt _ (by decide)

/-- The moon's correction goes by eight days in 25 centuries. -/
theorem moon_eq :
    moon y = (19 * (y % 19) + (y / 100 - y / 100 / 4) + 15 - (8 * (y / 100) + 13) / 25) % 30 := by
  have h : (y / 100 - (y / 100 + 8) / 25 + 1) / 3 = (8 * (y / 100) + 13) / 25 := by omega
  unfold moon
  dsimp only
  rw [h]
  congr 1
  omega

theorem ahead_eq :
    ahead y = if sunday y = 6 ∧ (moon y = 29 ∨ (moon y = 28 ∧ 11 ≤ y % 19)) then 1 else 0 := by
  have hmoon := moon_lt y
  have hsun := sunday_lt y
  unfold ahead
  split <;> omega

theorem march_range : 22 ≤ march y ∧ march y ≤ 56 := by
  have hmoon := moon_lt y
  have hsun := sunday_lt y
  have hahead := ahead_eq y
  unfold march
  split at hahead <;> omega

theorem easter_eq : easter y = if march y ≤ 31 then (3, march y) else (4, march y - 31) := by
  have hrange := march_range y
  have hsum : moon y + sunday y + 114 - 7 * ahead y = march y + 92 := by
    unfold march at hrange ⊢
    omega
  unfold easter
  rw [hsum]
  split
  · exact Prod.ext (by dsimp only; omega) (by dsimp only; omega)
  · exact Prod.ext (by dsimp only; omega) (by dsimp only; omega)

/-- The days up to Sunday undo those that the years have added to the week. -/
theorem sunday_add :
    (sunday y + (moon y + (y + y / 4 - (y / 100 - y / 100 / 4)))) % 7 = 4 := by
  -- the year is cut into four centuries, centuries, leap years and years
  obtain ⟨q, e, i, k, he, hk, hi, hy⟩ : ∃ q e i k, e < 4 ∧ k < 4 ∧ i < 25 ∧
      y = 400 * q + 100 * e + 4 * i + k :=
    ⟨y / 400, y / 100 % 4, y % 100 / 4, y % 100 % 4, by omega, by omega, by omega, by omega⟩
  have h1 : y / 100 % 4 = e := by omega
  have h2 : y % 100 / 4 = i := by omega
  have h3 : y % 100 % 4 = k := by omega
  have h4 : y + y / 4 - (y / 100 - y / 100 / 4) = 497 * q + 124 * e + 5 * i + k := by omega
  have hmoon := moon_lt y
  have hsun : sunday y =
      (32 + 2 * (y / 100 % 4) + 2 * (y % 100 / 4) - moon y - y % 100 % 4) % 7 := rfl
  rw [h1, h2, h3] at hsun
  rw [h4]
  clear h1 h2 h3 h4 hy
  generalize moon y = m at hmoon hsun ⊢
  omega

open Gregorian
open Months (before)

theorem easter_valid : Valid y (easter y).1 (easter y).2 := by
  have hrange := march_range y
  have h3 : monthDays y 3 = 31 := rfl
  have h4 : monthDays y 4 = 30 := rfl
  rw [easter_eq]
  unfold Valid
  split <;> dsimp only <;> omega

theorem dayNo_easter : dayNo y (easter y).1 (easter y).2 = dayNo y 3 (march y) := by
  rw [easter_eq]
  split
  · rfl
  · have h2 : yearDaysBefore (leapDay y) 2 = 59 + leapDay y := rfl
    have h3 : yearDaysBefore (leapDay y) 3 = 90 + leapDay y := rfl
    rw [dayNo_eq y (by decide : 1 ≤ 4) (by decide), dayNo_eq y (by decide) (by decide), h2, h3]
    omega

/-- **Easter is on a Sunday.** -/
theorem easter_sunday : weekday (dayNo y (easter y).1 (easter y).2) = 7 := by
  have hyear := before_year_end y
  have hadd := sunday_add y
  have hrange := march_range y
  have hmarch : march y + 7 * ahead y = 22 + moon y + sunday y := by
    unfold march at hrange ⊢
    omega
  have hcent : y / 100 / 4 = y / 400 := Nat.div_div_eq_div_mul ..
  have h2 : yearDaysBefore (leapDay y) 2 = 59 + leapDay y := rfl
  rw [hcent] at hadd
  rw [dayNo_easter, dayNo_eq y (by decide) (by decide), h2]
  generalize before len (12 * y) = b at *
  unfold weekday
  omega

end Computus
