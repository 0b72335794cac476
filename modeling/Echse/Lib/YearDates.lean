/-
Days, weekdays and weeks of a Gregorian year.

The `n`-th day of a year, the weekdays `w` of a month or of a year, and the ISO weeks of a
year, each given by the day numbers they are.
-/
import Echse.Lib.Gregorian
import Echse.Lib.Picks

namespace Gregorian

open Months (before)
open Picks

/-- The number of days of a year. -/
def yearLen (y : Nat) : Nat := 365 + leapDay y

theorem yearLen_range (y : Nat) : 365 ≤ yearLen y ∧ yearLen y ≤ 366 := by
  unfold yearLen leapDay
  split <;> omega

/-- The day number before New Year. -/
def yearStart (y : Nat) : Nat := before len (12 * y)

theorem yearStart_succ (y : Nat) : yearStart (y + 1) = yearStart y + yearLen y := by
  unfold yearStart yearLen
  rw [Nat.mul_succ, before_year_add y le_rfl]
  rfl

/-- A date is the `n`-th day of its year. -/
def IsYearDay (y n m d : Nat) : Prop := Valid y m d ∧ dayNo y m d = yearStart y + n

instance (y n m d : Nat) : Decidable (IsYearDay y n m d) := inferInstanceAs (Decidable (_ ∧ _))

theorem isYearDay_iff {y n m d : Nat} (h : Valid y m d) :
    IsYearDay y n m d ↔ yearDaysBefore (leapDay y) (m - 1) + d = n := by
  have hno := dayNo_eq y h.1 h.2.1 d
  unfold IsYearDay yearStart
  constructor
  · rintro ⟨-, heq⟩
    omega
  · intro heq
    exact ⟨h, by omega⟩

/-- The dates of a year are its days. -/
theorem IsYearDay.range {y n m d : Nat} (h : IsYearDay y n m d) : 1 ≤ n ∧ n ≤ yearLen y := by
  have hn := (isYearDay_iff h.1).mp h
  obtain ⟨⟨h1, h12, hd1, hd⟩, -⟩ := h
  have hmonth := monthDays_eq y (i := m - 1) (by omega)
  have hyear : yearDaysBefore (leapDay y) (m - 1 + 1) ≤ yearLen y := by
    unfold yearLen
    interval_cases m <;> simp only [yearDaysBefore] <;> omega
  rw [Nat.sub_add_cancel h1] at hmonth hyear
  omega

theorem IsYearDay.inj {y n m d m' d' : Nat} (h : IsYearDay y n m d) (h' : IsYearDay y n m' d') :
    m = m' ∧ d = d' :=
  (dayNo_inj h.1 h'.1 (h.2.trans h'.2.symm)).2

/-! ### Weekdays -/

/-- Those of the `k` days after day `n` that fall on weekday `w`, counted from 1. -/
def weekdaysAfter (n k w : Nat) : List Nat :=
  (List.range' 1 k).filter fun i => weekday (n + i) = w

/-- The days of a month that fall on weekday `w`. -/
def monthWeekdays (y m w : Nat) : List Nat :=
  weekdaysAfter (before len (monthNo y m)) (monthDays y m) w

/-- The days of a year that fall on weekday `w`. -/
def yearWeekdays (y w : Nat) : List Nat := weekdaysAfter (yearStart y) (yearLen y) w

theorem mem_monthWeekdays {y m w d : Nat} :
    d ∈ monthWeekdays y m w ↔ (1 ≤ d ∧ d ≤ monthDays y m) ∧ weekday (dayNo y m d) = w := by
  unfold monthWeekdays weekdaysAfter
  rw [List.mem_filter, List.mem_range'_1, decide_eq_true_eq]
  exact and_congr_left fun _ => by omega

theorem weekdaysAfter_eq (n k : Nat) {w : Nat} (hw : 1 ≤ w ∧ w ≤ 7) :
    weekdaysAfter n k w = (every 7 ((w + 7 - weekday (n + 1)) % 7) k).map (· + 1) := by
  unfold weekdaysAfter every
  rw [List.range'_eq_map_range, List.filter_map]
  congr 1
  · funext i
    exact Nat.add_comm 1 i
  · refine List.filter_congr fun i _ => ?_
    rw [Function.comp_apply, decide_eq_decide]
    unfold weekday
    omega

/-- **The `c`-th weekday `w` of some days on end**, the first of them `a` days from their start
and `count` of them in all. -/
theorem pick_weekdaysAfter {n k w a count : Nat} (hw : 1 ≤ w ∧ w ≤ 7) (c : Int)
    (ha : a = (w + 7 - weekday (n + 1)) % 7) (hcount : count = (k + (6 - a)) / 7) :
    pick (weekdaysAfter n k w) c =
      if 0 < c ∧ c ≤ count then some (a + 7 * (c - 1).toNat + 1)
      else if c < 0 ∧ -c ≤ count then some (a + 7 * (count + c).toNat + 1)
      else none := by
  have hevery : everyCount 7 a k = count := hcount.symm
  rw [weekdaysAfter_eq n k hw, pick_map, ← ha, pick_every (by omega), hevery]
  split
  · rfl
  · split <;> rfl

/-! ### ISO weeks -/

/-- The Monday of the first week, which is the one with the fourth of January. -/
def weekOne (y : Nat) : Nat := dayNo y 1 4 - (weekday (dayNo y 1 4) - 1)

/-- The number of weeks of a year. -/
def isoWeeks (y : Nat) : Nat := (weekOne (y + 1) - weekOne y) / 7

/-- Weekday `w` of the `k`-th week. -/
def isoDay (y k w : Nat) : Nat := weekOne y + 7 * (k - 1) + (w - 1)

theorem le_yearStart (y : Nat) : 365 * y ≤ yearStart y := by
  unfold yearStart
  have h := before_year y
  omega

/-- The first week begins within three days of New Year. -/
theorem weekOne_eq {y : Nat} (hy : 1 ≤ y) :
    weekOne y + (weekday (yearStart y + 1) - 1) =
      yearStart y + 1 + if weekday (yearStart y + 1) ≤ 4 then 0 else 7 := by
  have hstart := le_yearStart y
  have hfourth : dayNo y 1 4 = yearStart y + 4 := rfl
  unfold weekOne
  rw [hfourth]
  unfold weekday
  split <;> omega

/-- A year has 53 weeks if it begins with a Thursday, or with a Wednesday and has a leap day. -/
theorem isoWeeks_eq {y : Nat} (hy : 1 ≤ y) :
    isoWeeks y = if weekday (yearStart y + 1) = 4 ∨ (weekday (yearStart y + 1) = 3 ∧ Leap y) then 53
      else 52 := by
  have hone := weekOne_eq hy
  have hnext := weekOne_eq (y := y + 1) (by omega)
  have hrange : 1 ≤ weekday (yearStart y + 1) ∧ weekday (yearStart y + 1) ≤ 7 := by
    unfold weekday
    omega
  have hwd : weekday (yearStart (y + 1) + 1) =
      (weekday (yearStart y + 1) + leapDay y) % 7 + 1 := by
    rw [yearStart_succ]
    unfold yearLen weekday
    omega
  rw [hwd, yearStart_succ] at hnext
  have hweeks : weekOne (y + 1) = weekOne y + 7 *
      (if weekday (yearStart y + 1) = 4 ∨ (weekday (yearStart y + 1) = 3 ∧ Leap y) then 53 else 52) := by
    clear hwd hy
    unfold yearLen leapDay at hnext
    generalize weekday (yearStart y + 1) = j at *
    by_cases hleap : Leap y
    · rw [if_pos hleap] at hnext
      simp only [hleap, and_true]
      split <;> split at hone <;> split at hnext <;> omega
    · rw [if_neg hleap] at hnext
      simp only [hleap, and_false, or_false]
      split <;> split at hone <;> split at hnext <;> omega
  unfold isoWeeks
  rw [hweeks, Nat.add_sub_cancel_left, Nat.mul_div_cancel_left _ (by decide)]

end Gregorian
