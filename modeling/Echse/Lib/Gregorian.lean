/-
The Gregorian calendar.

Years from 0 on, with a leap day in every fourth year but three in four centuries.  Day
number 1 is the first of January of the year 0, a Saturday.
-/
import Echse.Lib.Months

namespace Gregorian

open Months

def Leap (y : Nat) : Prop := y % 4 = 0 ∧ (y % 100 ≠ 0 ∨ y % 400 = 0)

instance (y : Nat) : Decidable (Leap y) := inferInstanceAs (Decidable (_ ∧ _))

/-- The days of month `m` of year `y`. -/
def monthDays (y m : Nat) : Nat :=
  match m with
  | 2 => if Leap y then 29 else 28
  | 4 | 6 | 9 | 11 => 30
  | _ => 31

/-- The lengths of the months counted through. -/
def len (k : Nat) : Nat := monthDays (k / 12) (k % 12 + 1)

/-- The place of a month in the count. -/
def monthNo (y m : Nat) : Nat := 12 * y + (m - 1)

theorem len_monthNo {y m : Nat} (h1 : 1 ≤ m) (h12 : m ≤ 12) :
    len (monthNo y m) = monthDays y m := by
  unfold len monthNo
  rw [show (12 * y + (m - 1)) / 12 = y by omega,
    show (12 * y + (m - 1)) % 12 + 1 = m by omega]

/-- The number of a day. -/
def dayNo (y m d : Nat) : Nat := Months.dayNo len (monthNo y m) d

/-- A date of the calendar. -/
def Valid (y m d : Nat) : Prop := 1 ≤ m ∧ m ≤ 12 ∧ 1 ≤ d ∧ d ≤ monthDays y m

instance (y m d : Nat) : Decidable (Valid y m d) := inferInstanceAs (Decidable (_ ∧ _))

/-- A day has one date. -/
theorem dayNo_inj {y m d y' m' d' : Nat} (h : Valid y m d) (h' : Valid y' m' d')
    (heq : dayNo y m d = dayNo y' m' d') : y = y' ∧ m = m' ∧ d = d' := by
  obtain ⟨h1, h12, hd1, hd⟩ := h
  obtain ⟨h1', h12', hd1', hd'⟩ := h'
  rw [← len_monthNo h1 h12] at hd
  rw [← len_monthNo h1' h12'] at hd'
  obtain ⟨hm, rfl⟩ := Months.dayNo_inj ⟨hd1, hd⟩ ⟨hd1', hd'⟩ heq
  unfold monthNo at hm
  omega

/-- The weekday of a day number, Monday to Sunday being 1 to 7. -/
def weekday (n : Nat) : Nat := (n + 4) % 7 + 1

theorem weekday_add (n k : Nat) : weekday (n + k) = (weekday n - 1 + k) % 7 + 1 := by
  unfold weekday
  omega

theorem monthDays_range (y m : Nat) : 28 ≤ monthDays y m ∧ monthDays y m ≤ 31 := by
  unfold monthDays
  split
  · split <;> omega
  · omega
  · omega
  · omega
  · omega
  · omega

/-! ### Years -/

/-- The days of a year before each of its months, and those of the whole year. -/
def yearDaysBefore (leap : Nat) : Nat → Nat
  | 0 => 0
  | 1 => 31
  | 2 => 59 + leap
  | 3 => 90 + leap
  | 4 => 120 + leap
  | 5 => 151 + leap
  | 6 => 181 + leap
  | 7 => 212 + leap
  | 8 => 243 + leap
  | 9 => 273 + leap
  | 10 => 304 + leap
  | 11 => 334 + leap
  | _ => 365 + leap

/-- 1 in a leap year. -/
def leapDay (y : Nat) : Nat := if Leap y then 1 else 0

theorem monthDays_eq (y : Nat) {i : Nat} (h : i < 12) :
    yearDaysBefore (leapDay y) i + monthDays y (i + 1) = yearDaysBefore (leapDay y) (i + 1) := by
  interval_cases i <;> simp [yearDaysBefore, monthDays, leapDay] <;> split <;> omega

/-- The days before a month of a year whose months are as long as they should be. -/
theorem before_year_add_of {len : Nat → Nat} {y leap : Nat}
    (h : ∀ i < 12, yearDaysBefore leap i + len (12 * y + i) = yearDaysBefore leap (i + 1))
    {i : Nat} (hi : i ≤ 12) :
    before len (12 * y + i) = before len (12 * y) + yearDaysBefore leap i := by
  induction i with
  | zero => simp [yearDaysBefore]
  | succ i ih =>
      rw [← Nat.add_assoc, before_succ, ih (by omega), ← h i (by omega), Nat.add_assoc]

theorem before_year_add (y : Nat) {i : Nat} (h : i ≤ 12) :
    before len (12 * y + i) = before len (12 * y) + yearDaysBefore (leapDay y) i := by
  refine before_year_add_of (fun i hi => ?_) h
  have hlen := len_monthNo (y := y) (m := i + 1) (by omega) (by omega)
  rw [monthNo, Nat.add_sub_cancel] at hlen
  rw [hlen, monthDays_eq y hi]

theorem leapDay_eq (y : Nat) :
    leapDay y + (if y % 100 = 0 then 1 else 0) =
      (if y % 4 = 0 then 1 else 0) + (if y % 400 = 0 then 1 else 0) := by
  unfold leapDay Leap
  by_cases h4 : y % 4 = 0
  · by_cases h100 : y % 100 = 0
    · by_cases h400 : y % 400 = 0 <;> simp [h4, h100, h400]
    · have h400 : y % 400 ≠ 0 := by omega
      simp [h4, h100, h400]
  · have h100 : y % 100 ≠ 0 := by omega
    have h400 : y % 400 ≠ 0 := by omega
    simp [h4, h100, h400]

/-- How a count of every `n`-th year grows. -/
theorem div_succ (y n : Nat) (hn : 0 < n) :
    (y + 1 + (n - 1)) / n = (y + (n - 1)) / n + if y % n = 0 then 1 else 0 := by
  rw [show y + 1 + (n - 1) = y + (n - 1) + 1 by omega, Nat.succ_div]
  congr 1
  have hiff : n ∣ y + (n - 1) + 1 ↔ y % n = 0 := by
    rw [show y + (n - 1) + 1 = y + n by omega, Nat.dvd_add_self_right, Nat.dvd_iff_mod_eq_zero]
  simp only [hiff]

/-- The days before a year. -/
theorem before_year (y : Nat) :
    before len (12 * y) + (y + 99) / 100 = 365 * y + (y + 3) / 4 + (y + 399) / 400 := by
  induction y with
  | zero => rfl
  | succ y ih =>
      have hyear : before len (12 * (y + 1)) = before len (12 * y) + (365 + leapDay y) := by
        rw [Nat.mul_succ, before_year_add y le_rfl]
        rfl
      have h4 := div_succ y 4 (by decide)
      have h100 := div_succ y 100 (by decide)
      have h400 := div_succ y 400 (by decide)
      have hleap := leapDay_eq y
      simp only [Nat.add_one_sub_one] at h4 h100 h400
      omega

/-- The days up to the end of a year's February, leap day included. -/
theorem before_year_end (y : Nat) :
    before len (12 * y) + leapDay y + y / 100 = 365 * y + y / 4 + y / 400 + 1 := by
  have hyear : before len (12 * (y + 1)) = before len (12 * y) + (365 + leapDay y) := by
    rw [Nat.mul_succ, before_year_add y le_rfl]
    rfl
  have hnext := before_year (y + 1)
  omega

theorem dayNo_eq (y : Nat) {m : Nat} (h1 : 1 ≤ m) (h12 : m ≤ 12) (d : Nat) :
    dayNo y m d = before len (12 * y) + yearDaysBefore (leapDay y) (m - 1) + d := by
  unfold dayNo Months.dayNo monthNo
  rw [before_year_add y (by omega)]

/-- The number of a day without a sum over the months, such as it can be computed by. -/
theorem dayNo_closed (y : Nat) {m : Nat} (h1 : 1 ≤ m) (h12 : m ≤ 12) (d : Nat) :
    dayNo y m d = 365 * y + (y + 3) / 4 + (y + 399) / 400 - (y + 99) / 100 +
      yearDaysBefore (leapDay y) (m - 1) + d := by
  have hyear := before_year y
  rw [dayNo_eq y h1 h12]
  omega

/-! ### The day after -/

/-- The date that follows a date. -/
def next (y m d : Nat) : Nat × Nat × Nat :=
  if d < monthDays y m then (y, m, d + 1) else if m < 12 then (y, m + 1, 1) else (y + 1, 1, 1)

theorem valid_first (y : Nat) {m : Nat} (h1 : 1 ≤ m) (h12 : m ≤ 12) : Valid y m 1 :=
  ⟨h1, h12, le_rfl, le_trans (by decide) (monthDays_range y m).1⟩

theorem valid_next {y m d : Nat} (h : Valid y m d) :
    Valid (next y m d).1 (next y m d).2.1 (next y m d).2.2 := by
  obtain ⟨h1, h12, hd1, hd⟩ := h
  rw [next]
  split
  · rename_i hlt
    exact ⟨h1, h12, Nat.succ_pos d, hlt⟩
  · split
    · rename_i hm
      exact valid_first y (Nat.succ_pos m) hm
    · exact valid_first (y + 1) le_rfl (show 1 ≤ 12 by decide)

/-- **The day after has the next number.** -/
theorem dayNo_next {y m d : Nat} (h : Valid y m d) :
    dayNo (next y m d).1 (next y m d).2.1 (next y m d).2.2 = dayNo y m d + 1 := by
  obtain ⟨h1, h12, hd1, hd⟩ := h
  have hmonth : before len (monthNo y m + 1) = before len (monthNo y m) + monthDays y m := by
    rw [before_succ, len_monthNo h1 h12]
  rw [next]
  split
  · rfl
  · have hlast : d = monthDays y m := by omega
    unfold dayNo Months.dayNo
    split
    · dsimp only
      rw [show monthNo y (m + 1) = monthNo y m + 1 by unfold monthNo; omega]
      omega
    · dsimp only
      rw [show monthNo (y + 1) 1 = monthNo y m + 1 by unfold monthNo; omega]
      omega

end Gregorian
