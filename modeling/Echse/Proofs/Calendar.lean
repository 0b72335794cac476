/-
The Gregorian parts of `scale.c` and `evrrul.c` against the calendar.

Month lengths have a leap day in every fourth year, so they are the calendar's but for
the century years without one; weekdays take these into account.
-/
import Echse.Cand
import Echse.Lib.Gregorian

namespace Echse

open Gregorian (Leap monthDays dayNo leapDay)

/-- A year to which the rule of four gives its leap day, or none, rightly. -/
def CommonRule (y : Nat) : Prop := y % 4 = 0 → Leap y

instance (y : Nat) : Decidable (CommonRule y) := inferInstanceAs (Decidable (_ → _))

theorem ndimGreg_range (y : Nat) {m : Nat} (h1 : 1 ≤ m) (h12 : m ≤ 12) :
    28 ≤ ndimGreg y m ∧ ndimGreg y m ≤ 31 := by
  unfold ndimGreg gregMdays
  interval_cases m <;> simp
  split <;> omega

theorem ndimGreg_eq {y m : Nat} (h1 : 1 ≤ m) (h12 : m ≤ 12) (h : m = 2 → CommonRule y) :
    ndimGreg y m = monthDays y m := by
  unfold ndimGreg gregMdays monthDays
  interval_cases m <;> simp
  have hc := h rfl
  by_cases h4 : y % 4 = 0
  · rw [if_pos h4, if_pos (hc h4)]
  · rw [if_neg h4, if_neg (fun hl => h4 hl.1)]

/-- The month that has a day too many. -/
theorem ndimGreg_ne {y m : Nat} (h1 : 1 ≤ m) (h12 : m ≤ 12) (h : ndimGreg y m ≠ monthDays y m) :
    m = 2 ∧ ¬ CommonRule y := by
  by_contra hno
  refine h (ndimGreg_eq h1 h12 fun hm => ?_)
  by_contra hc
  exact hno ⟨hm, hc⟩

theorem monthDays_le_ndimGreg {y m : Nat} (h1 : 1 ≤ m) (h12 : m ≤ 12) :
    monthDays y m ≤ ndimGreg y m := by
  by_cases h : ndimGreg y m = monthDays y m
  · exact h.ge
  · obtain ⟨rfl, hc⟩ := ndimGreg_ne h1 h12 h
    have h4 : y % 4 = 0 := by
      by_contra h4
      exact hc fun h => absurd h h4
    have hl : ¬ Leap y := fun hl => hc fun _ => hl
    simp [ndimGreg, gregMdays, monthDays, h4, hl]

/-- **Sakamoto's method gives the weekday.** -/
theorem wdayGreg_eq {y m d : Nat} (hy : 1 ≤ y) (hy' : y < 1073741824) (h1 : 1 ≤ m) (h12 : m ≤ 12)
    (hd : d < 1073741824) : wdayGreg y m d = Gregorian.weekday (dayNo y m d) := by
  have hsak : sakamoto.getD (m - 1) 0 ≤ 6 := by interval_cases m <;> decide
  rw [Gregorian.dayNo_eq y h1 h12]
  unfold wdayGreg Gregorian.weekday wdaySun
  dsimp only
  by_cases h3 : m < 3
  · -- the year of January and February begins with the March before
    obtain ⟨x, rfl⟩ : ∃ x, y = x + 1 := ⟨y - 1, by omega⟩
    have hyear := Gregorian.before_year (x + 1)
    have hu : u32OfInt (((x + 1 : Nat) : Int) - 1) = x := by
      rw [show ((x + 1 : Nat) : Int) - 1 = (x : Int) by omega]
      exact u32OfInt_ofNat (by omega)
    rw [if_pos h3, hu, u32_of_lt (by omega)]
    -- a year moves the weekday by one
    have hb : Months.before Gregorian.len (12 * (x + 1))
        = 364 * x + 366 + (x + x / 4 + x / 400 - x / 100) := by omega
    rw [hb]
    generalize x + x / 4 + x / 400 - x / 100 = shift
    clear hb hu hyear hsak hy hy' hd
    interval_cases m
    · simp only [sakamoto, Gregorian.yearDaysBefore, Nat.sub_self, List.getD_cons_zero]
      split <;> omega
    · simp only [sakamoto, Gregorian.yearDaysBefore, Nat.reduceSub, List.getD_cons_zero,
        List.getD_cons_succ]
      split <;> omega
  · have hyear := Gregorian.before_year_end y
    rw [if_neg h3, u32_of_lt (by omega)]
    have hb : Months.before Gregorian.len (12 * y) + leapDay y
        = 364 * y + 1 + (y + y / 4 + y / 400 - y / 100) := by omega
    generalize y + y / 4 + y / 400 - y / 100 = shift at hb ⊢
    clear hyear hsak hy hy' hd
    interval_cases m
    all_goals
      simp only [sakamoto, Gregorian.yearDaysBefore, Nat.reduceSub, List.getD_cons_zero,
        List.getD_cons_succ]
      split <;> omega

/-! ### Days of the year -/

theorem leapDay_of_commonRule {y : Nat} (h : CommonRule y) :
    leapDay y = if y % 4 = 0 then 1 else 0 := by
  unfold leapDay
  by_cases h4 : y % 4 = 0
  · rw [if_pos (h h4), if_pos h4]
  · rw [if_neg (fun hl => h4 hl.1), if_neg h4]

theorem ymdGetYd_eq {y m : Nat} (h : CommonRule y) (h1 : 1 ≤ m) (h12 : m ≤ 12) (d : Nat) :
    ymdGetYd y m d = dayNo y m d - Months.before Gregorian.len (12 * y) := by
  rw [Gregorian.dayNo_eq y h1 h12, leapDay_of_commonRule h]
  unfold ymdGetYd
  by_cases h4 : y % 4 = 0
  · rw [if_pos h4]
    interval_cases m <;> simp [monYday, Gregorian.yearDaysBefore, h4] <;> omega
  · rw [if_neg h4]
    interval_cases m <;> simp [monYday, Gregorian.yearDaysBefore, h4] <;> omega

end Echse
