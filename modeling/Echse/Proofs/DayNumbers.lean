/-
Day numbers of the calendars in `scale.c`.

The Gregorian conversions are right both ways.  The arithmetic Hijri ones count the days of
the documented leap years, but for type IV in the last year of a cycle; on the way back the
last day of a leap year becomes the first of a thirteenth month.
-/
import Echse.Scale
import Echse.Proofs.Calendar

namespace Echse

open Gregorian (dayNo leapDay yearDaysBefore monthDays)
open Months (before)

/-! ### Gregorian dates -/

/-- The year that the months from March on are counted in. -/
theorem g2mjd_year {m : Nat} (h1 : 1 ≤ m) (h12 : m ≤ 12) :
    Int.tdiv ((m : Int) - 8) 6 = if m < 3 then -1 else 0 := by
  interval_cases m <;> rfl

theorem mjd2g_year {m : Nat} (h1 : 1 ≤ m) (h12 : m ≤ 12) :
    Int.tdiv (8 - (m : Int)) 6 = if m < 3 then 1 else 0 := by
  interval_cases m <;> rfl

/-- The days before a month, from March on. -/
theorem g2mjd_month {m : Nat} (h1 : 1 ≤ m) (h12 : m ≤ 12) (leap : Nat) :
    (153 * ((m + 9) % 12) + 2) / 5 + (if m < 3 then 0 else 59 + leap) =
      yearDaysBefore leap (m - 1) + if m < 3 then 306 else 0 := by
  interval_cases m <;> simp [yearDaysBefore] <;> omega

/-- What `g2mjd` computes from the year, the days before the month and the day. -/
theorem g2mjd_words {b mdays d : Nat} (hb : b < 110000) (hm : mdays < 400) (hd : d < 32) :
    u32OfInt (((u32 (u32 (b * 1461) / 4 + mdays + d) : Nat) : Int) - (u32 (b / 100 * 3) / 4 : Nat)
        + 752 - 34840408 - 2400000) =
      u32OfInt ((365 * b + b / 4 + mdays + d : Nat) - (b / 100 * 3 / 4 : Nat) - 37239656) := by
  have hfour : b * 1461 / 4 = 365 * b + b / 4 := by omega
  have hc : b / 100 ≤ 1100 := by omega
  have hq : b / 4 ≤ 27500 := by omega
  rw [u32_of_lt (n := b * 1461) (by omega), hfour, u32_of_lt (n := b / 100 * 3) (by omega),
    u32_of_lt (by omega)]
  generalize b / 100 * 3 / 4 = c
  refine congrArg u32OfInt ?_
  omega

/-- The centuries of years that begin in March. -/
theorem centuries_early (y : Nat) :
    (y + 100099) / 100 * 3 / 4 + (y + 399) / 400 = (y + 99) / 100 + 750 := by
  have h : (y + 99 + 100 * 3) / 100 / 4 = (y + 399) / 400 := Nat.div_div_eq_div_mul _ 100 4
  rw [← h, Nat.add_mul_div_left _ _ (by decide),
    show y + 100099 = y + 99 + 100 * 1000 by omega, Nat.add_mul_div_left _ _ (by decide)]
  omega

theorem centuries_late (y : Nat) :
    (y + 100100) / 100 * 3 / 4 + y / 400 = y / 100 + 750 := by
  rw [← Nat.div_div_eq_div_mul y 100 4, show y + 100100 = y + 100 * 1001 by omega,
    Nat.add_mul_div_left _ _ (by decide)]
  omega

/-- A year from March on, counted from far back, and the days of it that have passed. -/
structure MarYear (b a : Nat) : Prop where
  year : b < 110000
  day : a < 366
  /-- The last day is that of a leap year. -/
  leap : a = 365 → (b + 1) % 4 = 0 ∧ ((b + 1) % 100 ≠ 0 ∨ (b + 1) % 400 = 100)

/-- The days before a year from March on, by the rule of four, less those of the centuries. -/
def marDay (b a : Nat) : Nat := 365 * b + b / 4 + a - b / 100 * 3 / 4

/-- The year from March on that a month is in. -/
def marYear (y m : Nat) : Nat := if m < 3 then y + 100099 else y + 100100

/-- The days of it before a date. -/
def marDoy (m d : Nat) : Nat := (153 * ((m + 9) % 12) + 2) / 5 + (d - 1)

/-- A date has as many days before it as the years from March on say. -/
theorem marDay_eq {y m d : Nat} (h : Gregorian.Valid y m d) :
    marDay (marYear y m) (marDoy m d) = dayNo y m d + 36560714 := by
  obtain ⟨h1, h12, hd1, -⟩ := h
  have hday := Gregorian.dayNo_eq y h1 h12 d
  have hmonth := g2mjd_month h1 h12 (leapDay y)
  rw [marDay, hday, marYear, marDoy]
  generalize (153 * ((m + 9) % 12) + 2) / 5 = mdays at *
  by_cases h3 : m < 3
  · simp only [h3, if_true] at hmonth ⊢
    have hyear := Gregorian.before_year y
    have hcent := centuries_early y
    have hfour : (y + 100099) / 4 = (y + 3) / 4 + 25024 := by omega
    rw [hfour]
    generalize (y + 100099) / 100 * 3 / 4 = cent at *
    generalize (y + 399) / 400 = quad at *
    generalize (y + 99) / 100 = c at *
    generalize (y + 3) / 4 = a at *
    omega
  · simp only [h3, if_false] at hmonth ⊢
    have hend := Gregorian.before_year_end y
    have hcent := centuries_late y
    have hfour : (y + 100100) / 4 = y / 4 + 25025 := by omega
    rw [hfour]
    generalize (y + 100100) / 100 * 3 / 4 = cent at *
    generalize y / 400 = quad at *
    generalize y / 100 = c at *
    generalize y / 4 = a at *
    omega

/-- The longest that the months get. -/
def longest : List Nat := [31, 29, 31, 30, 31, 30, 31, 31, 30, 31, 30, 31]

theorem monthDays_le_longest (y : Nat) {m : Nat} (h1 : 1 ≤ m) (h12 : m ≤ 12) :
    monthDays y m ≤ longest.getD (m - 1) 0 := by
  unfold monthDays longest
  interval_cases m <;> simp
  split <;> omega

/-- No date is later in its year than the leap day. -/
theorem marDoy_le : ∀ m < 12, ∀ d < longest.getD m 0,
    marDoy (m + 1) (d + 1) ≤ 365 ∧ (marDoy (m + 1) (d + 1) = 365 → m = 1 ∧ d = 28) := by
  decide

theorem marYear_spec {y m d : Nat} (hy : y < 9000) (h : Gregorian.Valid y m d) :
    MarYear (marYear y m) (marDoy m d) := by
  obtain ⟨h1, h12, hd1, hd⟩ := h
  obtain ⟨m, rfl⟩ : ∃ i, m = i + 1 := ⟨m - 1, by omega⟩
  obtain ⟨d, rfl⟩ : ∃ i, d = i + 1 := ⟨d - 1, by omega⟩
  have hlong := hd.trans (monthDays_le_longest y h1 h12)
  obtain ⟨hle, hlast⟩ := marDoy_le m h12 d hlong
  refine ⟨?_, by omega, ?_⟩
  · rw [marYear]
    split <;> omega
  · intro heq
    obtain ⟨rfl, rfl⟩ := hlast heq
    have hleap : Gregorian.Leap y := by
      by_contra hn
      simp [monthDays, hn] at hd
    unfold Gregorian.Leap at hleap
    rw [marYear]
    split <;> omega

/-- The day number of a date, as a word. -/
theorem g2mjd_eq {y m d : Nat} (hy : y < 9000) (h : Gregorian.Valid y m d) :
    g2mjd ⟨y, m, d⟩ = u32OfInt ((dayNo y m d : Int) - 678941) := by
  have hmar := marYear_spec hy h
  have hday := marDay_eq h
  obtain ⟨h1, h12, hd1, hd⟩ := h
  have hd31 := (Gregorian.monthDays_range y m).2
  have hmod : (m + 9) % 12 < 12 := Nat.mod_lt _ (by decide)
  have hb : u32OfInt ((y : Int) + 100100 + if m < 3 then -1 else 0) = marYear y m := by
    rw [marYear]
    split
    · rw [show (y : Int) + 100100 + -1 = (y + 100099 : Nat) by omega]
      exact u32OfInt_ofNat (by omega)
    · rw [show (y : Int) + 100100 + 0 = (y + 100100 : Nat) by omega]
      exact u32OfInt_ofNat (by omega)
  have hyear := hmar.year
  simp only [g2mjd]
  rw [g2mjd_year h1 h12, u32_of_lt (n := 153 * _ + 2) (by omega), hb,
    g2mjd_words hyear (by omega) (by omega)]
  rw [marDay, marDoy] at hday
  generalize marYear y m = b at *
  have hc : b / 100 * 3 / 4 ≤ b := by omega
  generalize (153 * ((m + 9) % 12) + 2) / 5 = mdays at *
  generalize b / 100 * 3 / 4 = c at *
  generalize b / 4 = q at *
  refine congrArg u32OfInt ?_
  omega

/-- The century is found. -/
theorem MarYear.century {b a : Nat} (h : MarYear b a) : 4 * marDay b a / 146097 = b / 100 := by
  obtain ⟨hb, ha, hleap⟩ := h
  obtain ⟨c, r, hr, rfl⟩ : ∃ c r, r < 100 ∧ b = 100 * c + r :=
    ⟨b / 100, b % 100, Nat.mod_lt _ (by decide), (Nat.div_add_mod b 100).symm⟩
  have hc : (100 * c + r) / 100 = c := by omega
  have h4 : (100 * c + r) / 4 = 25 * c + r / 4 := by omega
  have hlast : a = 365 → r = 99 → c % 4 = 0 := by
    intro ha hr
    have := hleap ha
    omega
  clear hleap
  rw [marDay, hc, h4]
  have hT : 4 * (365 * (100 * c + r) + (25 * c + r / 4) + a - c * 3 / 4) =
      146097 * c + (1460 * r + 4 * (r / 4) + 4 * a + c * 3 % 4) := by omega
  rw [hT, Nat.mul_add_div (by decide)]
  have hlt : 1460 * r + 4 * (r / 4) + 4 * a + c * 3 % 4 < 146097 := by omega
  omega

/-- The year is found, and the days of it. -/
theorem MarYear.parts {b a : Nat} (h : MarYear b a) :
    (4 * (365 * b + b / 4 + a) + 3) / 1461 = b ∧
      (4 * (365 * b + b / 4 + a) + 3) % 1461 / 4 = a := by
  obtain ⟨hb, ha, hleap⟩ := h
  have hlast : a = 365 → b % 4 = 3 := by
    intro ha
    have := hleap ha
    omega
  clear hleap
  have hj : 4 * (365 * b + b / 4 + a) + 3 = 1461 * b + (4 * a + (3 - b % 4)) := by omega
  have hlt : 4 * a + (3 - b % 4) < 1461 := by omega
  rw [hj, Nat.mul_add_div (by decide), Nat.mul_add_mod, Nat.mod_eq_of_lt hlt,
    Nat.div_eq_of_lt hlt]
  omega

/-- The month is found, and the day of it. -/
theorem mjd2g_month : ∀ m < 12, ∀ d < longest.getD m 0,
    (marDoy (m + 1) (d + 1) * 5 + 308) / 153 % 12 + 1 = m + 1 ∧
      (marDoy (m + 1) (d + 1) * 5 + 308) % 153 / 5 + 1 = d + 1 := by
  decide

/-- Words are added as their values are. -/
theorem u32_u32OfInt_add (z : Int) (k : Nat) : u32 (u32OfInt z + k) = u32OfInt (z + k) := by
  unfold u32 u32OfInt wordOfInt
  omega

/-- What `mjd2g` computes from a day number, the day being given by the year from March on. -/
theorem mjd2g_eq {b a n : Nat} (h : MarYear b a) (hn : n + 36560714 = marDay b a) :
    mjd2g (u32OfInt ((n : Int) - 678941)) =
      ⟨u32OfInt ((b : Int) - 100100 + Int.tdiv (8 - (((a * 5 + 308) / 153 % 12 + 1 : Nat) : Int)) 6),
        (a * 5 + 308) / 153 % 12 + 1, (a * 5 + 308) % 153 / 5 + 1⟩ := by
  have hb := h.year
  have ha := h.day
  have hcent := h.century
  obtain ⟨hyear, hday⟩ := h.parts
  have hmar : marDay b a + b / 100 * 3 / 4 = 365 * b + b / 4 + a := by
    rw [marDay]
    omega
  have hc : b / 100 < 1100 := by omega
  have hq : b / 4 < 27500 := by omega
  have hD : u32 (u32OfInt ((n : Int) - 678941) + 2400000) = n + 1721059 := by
    rw [u32_u32OfInt_add,
      show (n : Int) - 678941 + (2400000 : Nat) = (n + 1721059 : Nat) by omega]
    exact u32OfInt_ofNat (by omega)
  have hX : u32 (4 * (n + 1721059) + 183187720) / 146097 = b / 100 + 300 := by
    rw [u32_of_lt (by omega),
      show 4 * (n + 1721059) + 183187720 = 4 * marDay b a + 146097 * 300 by omega,
      Nat.add_mul_div_left _ _ (by decide), hcent]
  have hC : u32 (u32 (4 * (n + 1721059) + 183187720) / 146097 * 3) / 4 = b / 100 * 3 / 4 + 225 := by
    rw [hX, u32_of_lt (by omega)]
    omega
  have hj : u32OfInt ((u32 (4 * (n + 1721059) + 139361631) : Nat) +
      (u32 (u32 (4 * (n + 1721059) + 183187720) / 146097 * 3) / 4 * 4 : Nat) - 3908) =
        4 * (365 * b + b / 4 + a) + 3 := by
    rw [hC, u32_of_lt (by omega), ← hmar]
    generalize b / 100 * 3 / 4 = c at *
    rw [show ((4 * (n + 1721059) + 139361631 : Nat) : Int) + ((c + 225) * 4 : Nat) - 3908 =
      ((4 * (marDay b a + c) + 3 : Nat) : Int) by omega]
    exact u32OfInt_ofNat (by omega)
  simp only [mjd2g]
  rw [hD, hj, hyear, hday]

/-- **A date comes back from its day number.** -/
theorem mjd2g_g2mjd {y m d : Nat} (hy : y < 9000) (h : Gregorian.Valid y m d) :
    mjd2g (g2mjd ⟨y, m, d⟩) = ⟨y, m, d⟩ := by
  rw [g2mjd_eq hy h, mjd2g_eq (marYear_spec hy h) (marDay_eq h).symm]
  obtain ⟨h1, h12, hd1, hd⟩ := h
  obtain ⟨m, rfl⟩ : ∃ i, m = i + 1 := ⟨m - 1, by omega⟩
  obtain ⟨d, rfl⟩ : ∃ i, d = i + 1 := ⟨d - 1, by omega⟩
  obtain ⟨hm, hday⟩ := mjd2g_month m h12 d (hd.trans (monthDays_le_longest y h1 h12))
  rw [hm, hday]
  rw [mjd2g_year h1 h12]
  refine congrArg (fun y => (⟨y, m + 1, d + 1⟩ : Ymd)) ?_
  rw [show ((marYear y (m + 1) : Nat) : Int) - 100100 + (if m + 1 < 3 then 1 else 0) = (y : Int) by
    rw [marYear]
    split <;> omega]
  exact u32OfInt_ofNat (by omega)

theorem dayNo_lt {y m d : Nat} (hy : y < 9000) (h : Gregorian.Valid y m d) :
    dayNo y m d < 1000 + 366 * y := by
  have hday := marDay_eq h
  have ha := (marYear_spec hy h).day
  rw [marDay, marYear] at hday
  split at hday <;> omega

/-- The day number of a date, its word read as a signed number. -/
theorem intOfWord_g2mjd {y m d : Nat} (hy : y < 9000) (h : Gregorian.Valid y m d) :
    intOfWord 32 (g2mjd ⟨y, m, d⟩) = (dayNo y m d : Int) - 678941 := by
  have hlt := dayNo_lt hy h
  rw [g2mjd_eq hy h]
  unfold u32OfInt wordOfInt intOfWord
  split <;> omega

/-- **Gregorian dates and their day numbers.**  A date comes back from its day number, and
the date after it has the next number. -/
theorem mjd2g_g2mjd_next {y m d : Nat} (hy : y < 4096) (h : Gregorian.Valid y m d) :
    mjd2g (g2mjd ⟨y, m, d⟩) = ⟨y, m, d⟩ ∧
      intOfWord 32 (g2mjd ⟨(Gregorian.next y m d).1, (Gregorian.next y m d).2.1,
        (Gregorian.next y m d).2.2⟩) = intOfWord 32 (g2mjd ⟨y, m, d⟩) + 1 := by
  refine ⟨mjd2g_g2mjd (by omega) h, ?_⟩
  have hnext : (Gregorian.next y m d).1 < 9000 := by
    rw [Gregorian.next]
    split
    · show y < 9000
      omega
    · split
      · show y < 9000
        omega
      · show y + 1 < 9000
        omega
  rw [intOfWord_g2mjd hnext (Gregorian.valid_next h), intOfWord_g2mjd (by omega) h,
    Gregorian.dayNo_next h]
  omega

theorem mjd2g_g2mjd_next_century :
    mjd2g (g2mjd ⟨1900, 2, 28⟩) = ⟨1900, 2, 28⟩ ∧
      intOfWord 32 (g2mjd ⟨1900, 3, 1⟩) = intOfWord 32 (g2mjd ⟨1900, 2, 28⟩) + 1 :=
  mjd2g_g2mjd_next (show 1900 < 4096 by decide) (by decide)

/-! ### Arithmetic Hijri dates

The formulas count the days of a cycle's years by rounding, and the cycle has whole days, so
that the number of a day is one rounded multiple of its year.  Type IV shifts below 0.
-/

/-- The years of the cycle with a leap day, as `__hij_inty_p` lists them. -/
def hijLeapYears : HijTyp → List Nat
  | .I => [2, 5, 7, 10, 13, 15, 18, 21, 24, 26, 29]
  | .II => [2, 5, 7, 10, 13, 16, 18, 21, 24, 26, 29]
  | .III => [2, 5, 8, 10, 13, 16, 19, 21, 24, 27, 29]
  | .IV => [2, 5, 8, 11, 13, 16, 19, 21, 24, 27, 30]

def HijLeap (t : HijTyp) (y : Nat) : Prop := (y - 1) % 30 + 1 ∈ hijLeapYears t

instance (t : HijTyp) (y : Nat) : Decidable (HijLeap t y) := List.instDecidableMemOfLawfulBEq _ _

/-- The days of a month, in turn 30 and 29, and a leap day at the end of the year. -/
def hijMonthLen (t : HijTyp) (y m : Nat) : Nat := 29 + m % 2 + if m = 12 ∧ HijLeap t y then 1 else 0

/-- A date of the documented calendar. -/
def HijValid (t : HijTyp) (h : Ymd) : Prop :=
  1 ≤ h.y ∧ 1 ≤ h.m ∧ h.m ≤ 12 ∧ 1 ≤ h.d ∧ h.d ≤ hijMonthLen t h.y h.m

instance (t : HijTyp) (h : Ymd) : Decidable (HijValid t h) := inferInstanceAs (Decidable (_ ∧ _))

theorem HijValid.doy_le {t : HijTyp} {h : Ymd} (hv : HijValid t h) :
    hijMonthDays.getD h.m 0 + h.d ≤ 356 := by
  obtain ⟨-, -, h12, -, hd⟩ := hv
  have hbefore : ∀ m < 13, hijMonthDays.getD m 0 ≤ 325 := by decide
  have hm := hbefore h.m (Nat.lt_succ_of_le h12)
  unfold hijMonthLen at hd
  split at hd <;> omega

/-- The days of the `n`-th year after the first. -/
def hijYearLen (t : HijTyp) (n : Nat) : Nat := 354 + if HijLeap t (n + 1) then 1 else 0

/-- The number of a date, the calendar's first day being number 1. -/
def hijDayNo (t : HijTyp) (h : Ymd) : Nat :=
  before (hijYearLen t) (h.y - 1) + hijMonthDays.getD h.m 0 + h.d

/-- The shift of a type, not wrapped. -/
def hijShift : HijTyp → Int
  | .I => 401
  | .II => 301
  | .III => 1
  | .IV => -199

/-- A cycle has 10631 days. -/
theorem hijShift_cycle (t : HijTyp) (c k : Nat) :
    (1063100 * ((30 * c + k : Nat) : Int) + hijShift t) / 3000 =
      10631 * c + (1063100 * (k : Int) + hijShift t) / 3000 := by
  rw [show 1063100 * ((30 * c + k : Nat) : Int) + hijShift t =
    1063100 * (k : Int) + hijShift t + 3000 * (10631 * (c : Int)) by push_cast; ring,
    Int.add_mul_ediv_left _ _ (by decide), Int.add_comm]

/-- The leap years of a cycle are where the formula gets another day. -/
theorem hijShift_cycle_step (t : HijTyp) : ∀ k < 30,
    (1063100 * ((k + 1 : Nat) : Int) + hijShift t) / 3000 =
      (1063100 * (k : Int) + hijShift t) / 3000 + 354 +
        if (k + 29) % 30 + 1 ∈ hijLeapYears t then 1 else 0 := by
  cases t <;> decide

theorem hijShift_step (t : HijTyp) (n : Nat) :
    (1063100 * ((n + 2 : Nat) : Int) + hijShift t) / 3000 =
      (1063100 * ((n + 1 : Nat) : Int) + hijShift t) / 3000 + hijYearLen t n := by
  obtain ⟨c, k, hk, hn⟩ : ∃ c k, k < 30 ∧ n + 1 = 30 * c + k :=
    ⟨(n + 1) / 30, (n + 1) % 30, Nat.mod_lt _ (by decide), (Nat.div_add_mod _ 30).symm⟩
  have hleap : HijLeap t (n + 1) ↔ (k + 29) % 30 + 1 ∈ hijLeapYears t := by
    rw [HijLeap, show (n + 1 - 1) % 30 = (k + 29) % 30 by omega]
  rw [show n + 2 = 30 * c + (k + 1) by omega, hn, hijShift_cycle, hijShift_cycle,
    hijShift_cycle_step t k hk]
  unfold hijYearLen
  simp only [hleap]
  push_cast
  ring

/-- The days before a year of the documented calendar. -/
theorem before_hijYearLen (t : HijTyp) (n : Nat) :
    (before (hijYearLen t) n : Int) + 354 = (1063100 * ((n + 1 : Nat) : Int) + hijShift t) / 3000 := by
  induction n with
  | zero => cases t <;> decide
  | succ n ih =>
      rw [Months.before_succ, hijShift_step, ← ih]
      push_cast
      ring

/-- The day that `hij2mjd` counts, before it wraps. -/
def hijDay (t : HijTyp) (h : Ymd) : Nat :=
  h.y / 30 * 10631 + u32 (h.y % 30 * 1063100 + tsh t) / 3000 + (hijMonthDays.getD h.m 0 + h.d)

/-- The years whose shift wraps: the last of the cycle, by type IV. -/
def HijWraps (t : HijTyp) (y : Nat) : Prop := t = .IV ∧ y % 30 = 0

instance (t : HijTyp) (y : Nat) : Decidable (HijWraps t y) := inferInstanceAs (Decidable (_ ∧ _))

/-- The rounding is that of the shift, unless it wraps. -/
theorem u32_tsh {t : HijTyp} {k : Nat} (hk : k < 30) (h : ¬ (t = .IV ∧ k = 0)) :
    ((u32 (k * 1063100 + tsh t) / 3000 : Nat) : Int) = (1063100 * (k : Int) + hijShift t) / 3000 := by
  cases t with
  | I =>
      rw [show tsh .I = 401 from rfl, u32_of_lt (by omega), hijShift]
      omega
  | II =>
      rw [show tsh .II = 301 from rfl, u32_of_lt (by omega), hijShift]
      omega
  | III =>
      rw [show tsh .III = 1 from rfl, u32_of_lt (by omega), hijShift]
      omega
  | IV =>
      have hpos : k ≠ 0 := fun h0 => h ⟨rfl, h0⟩
      have hu : u32 (k * 1063100 + tsh .IV) = k * 1063100 - 199 := by
        rw [show tsh .IV = 4294967097 from rfl, u32]
        omega
      rw [hu, hijShift]
      omega

/-- The code counts the documented days. -/
theorem hijDay_eq {t : HijTyp} {h : Ymd} (hy : 1 ≤ h.y) (hw : ¬ HijWraps t h.y) :
    hijDay t h = hijDayNo t h + 354 := by
  have hcode := u32_tsh (t := t) (Nat.mod_lt h.y (show 0 < 30 by decide)) hw
  have hcount := before_hijYearLen t (h.y - 1)
  have hcycle := hijShift_cycle t (h.y / 30) (h.y % 30)
  rw [Nat.div_add_mod] at hcycle
  rw [show h.y - 1 + 1 = h.y by omega, hcycle, ← hcode] at hcount
  rw [hijDay, hijDayNo]
  omega

/-- The day number is the day counted, shifted, as a word. -/
theorem hij2mjd_modEq (t : HijTyp) (e : HijEpo) (h : Ymd) :
    ((hij2mjd t e h : Nat) : Int) ≡ hijDay t h + ((epo e : Int) - 2400000) [ZMOD 4294967296] := by
  have hday : ((u32 (h.y / 30 * 10631 + u32 (h.y % 30 * 1063100 + tsh t) / 3000 +
      u32 (hijMonthDays.getD h.m 0 + h.d)) : Nat) : Int) ≡ hijDay t h [ZMOD 4294967296] := by
    refine (u32_modEq _).trans ?_
    rw [hijDay, Nat.cast_add, Nat.cast_add _ (hijMonthDays.getD h.m 0 + h.d)]
    exact (u32_modEq _).add_left _
  simp only [hij2mjd]
  refine (u32OfInt_modEq _).trans ?_
  rw [Int.add_sub_assoc]
  exact hday.add_right _

/-- Differences of day numbers are those of the days counted. -/
theorem hij2mjd_sub (t : HijTyp) (e : HijEpo) (h h' : Ymd) :
    u32OfInt ((hij2mjd t e h' : Int) - hij2mjd t e h) =
      u32OfInt ((hijDay t h' : Int) - hijDay t h) := by
  refine u32OfInt_congr (((hij2mjd_modEq t e h').sub (hij2mjd_modEq t e h)).trans ?_)
  rw [add_sub_add_right_eq_sub]

/-- What `mjd2hij` does once it has the days counted. -/
def hijOfDay (t : HijTyp) (z : Nat) : Ymd :=
  let z1 := z % 10631
  let b := if z1 = 0 then 1 else 0
  let k := u32OfInt ((u32OfInt (3000 * (z1 : Int) - tsh t) / 1063100 : Nat) - (b : Int))
  let z2 := u32OfInt ((z1 : Int) - (u32 (k * 1063100 + tsh t) / 3000 : Nat) + b)
  let m := u32 (10000 * z2 + 285001) / 295000
  ⟨u32 (30 * (z / 10631) + k), m,
    u32OfInt ((z2 : Int) - (u32OfInt (295001 * (m : Int) - 290000) / 10000 : Nat))⟩

/-- The days counted are found again, as far as they did not wrap. -/
theorem mjd2hij_hij2mjd_day (t : HijTyp) (e : HijEpo) (h : Ymd) :
    mjd2hij t e (hij2mjd t e h) = hijOfDay t (u32 (hijDay t h)) := by
  have hz : u32OfInt ((hij2mjd t e h : Int) + 2400000 - epo e) = u32 (hijDay t h) := by
    rw [← u32OfInt_natCast]
    refine u32OfInt_congr ?_
    have hday := (hij2mjd_modEq t e h).add_right (2400000 - (epo e : Int))
    rw [show (hijDay t h : Int) + ((epo e : Int) - 2400000) + (2400000 - epo e) = hijDay t h by ring,
      ← Int.add_sub_assoc] at hday
    exact hday
  simp only [mjd2hij, hijOfDay]
  rw [hz]

/-- The last day of a cycle has no month. -/
theorem hijOfDay_cycle (t : HijTyp) {z : Nat} (hz : z % 10631 = 0) : 12 < (hijOfDay t z).m := by
  simp only [hijOfDay]
  rw [hz]
  cases t <;> decide

/-- The last day of a leap year is not among the dates that come out. -/
theorem hijOfDay_ne_last (t : HijTyp) (z : Nat) :
    ¬ ((hijOfDay t z).m = 12 ∧ (hijOfDay t z).d = 30) := by
  rintro ⟨hm, hd⟩
  simp only [hijOfDay] at hm hd
  rw [hm] at hd
  generalize hz : u32OfInt (((z % 10631 : Nat) : Int) - _ + _) = z2 at hm hd
  have hlt : z2 < 4294967296 := by
    rw [← hz]
    exact u32OfInt_lt _
  have hsub : u32OfInt ((z2 : Int) - 325) = 30 := hd
  unfold u32 at hm
  unfold u32OfInt wordOfInt at hsub
  omega

/-- The year of the cycle, from the days of the cycle. -/
theorem hijOfDay_year_word (t : HijTyp) {r : Nat} (h1 : 1 ≤ r) (hr : r < 10631) :
    u32OfInt (3000 * (r : Int) - tsh t) = (3000 * (r : Int) - hijShift t).toNat := by
  cases t with
  | I =>
      rw [show tsh .I = 401 from rfl, hijShift, show 3000 * (r : Int) - (401 : Nat) =
        (3000 * r - 401 : Nat) by omega, u32OfInt_ofNat (by omega)]
      omega
  | II =>
      rw [show tsh .II = 301 from rfl, hijShift, show 3000 * (r : Int) - (301 : Nat) =
        (3000 * r - 301 : Nat) by omega, u32OfInt_ofNat (by omega)]
      omega
  | III =>
      rw [show tsh .III = 1 from rfl, hijShift, show 3000 * (r : Int) - (1 : Nat) =
        (3000 * r - 1 : Nat) by omega, u32OfInt_ofNat (by omega)]
      omega
  | IV =>
      rw [show tsh .IV = 4294967097 from rfl, hijShift]
      unfold u32OfInt wordOfInt
      omega

theorem hijShift_range (t : HijTyp) : -199 ≤ hijShift t ∧ hijShift t ≤ 401 := by
  cases t <;> decide

/-- The year that comes out is one of the cycle's. -/
theorem hijOfDay_y (t : HijTyp) {z : Nat} (hz : z < 4294967296) (hr : z % 10631 ≠ 0) :
    (hijOfDay t z).y / 30 = z / 10631 := by
  have hlt : z % 10631 < 10631 := Nat.mod_lt _ (by decide)
  have hcyc : z / 10631 < 404005 := by omega
  have hshift := hijShift_range t
  simp only [hijOfDay]
  rw [if_neg hr, hijOfDay_year_word t (by omega) hlt]
  generalize z % 10631 = r at *
  have hk : (3000 * (r : Int) - hijShift t).toNat / 1063100 < 30 := by omega
  generalize (3000 * (r : Int) - hijShift t).toNat / 1063100 = k at *
  rw [Int.sub_zero, u32OfInt_ofNat (by omega), u32_of_lt (by omega)]
  omega

/-- The month comes out, and the day of it, from the days of the year. -/
theorem hijOfDay_month : ∀ m < 12, ∀ d < 29 + (m + 1) % 2,
    (10000 * (hijMonthDays.getD (m + 1) 0 + (d + 1)) + 285001) / 295000 = m + 1 ∧
      hijMonthDays.getD (m + 1) 0 = (295001 * (m + 1) - 290000) / 10000 ∧
      hijMonthDays.getD (m + 1) 0 + (d + 1) ≤ 354 := by
  decide

/-- A date that is not the last of a leap year comes out of its day. -/
theorem hijOfDay_hijDay {t : HijTyp} {h : Ymd} (hv : HijValid t h) (hy : h.y < 4294967296)
    (hlast : ¬ (h.m = 12 ∧ h.d = 30)) (hw : ¬ HijWraps t h.y) (hsmall : hijDay t h < 4294967296) :
    hijOfDay t (hijDay t h) = h := by
  obtain ⟨y, m, d⟩ := h
  obtain ⟨hy1, h1, h12, hd1, hd⟩ := hv
  dsimp only at *
  obtain ⟨m, rfl⟩ : ∃ i, m = i + 1 := ⟨m - 1, by omega⟩
  obtain ⟨d, rfl⟩ : ∃ i, d = i + 1 := ⟨d - 1, by omega⟩
  have hd' : d < 29 + (m + 1) % 2 := by
    unfold hijMonthLen at hd
    split at hd <;> omega
  obtain ⟨hmonth, hbefore, hdoy⟩ := hijOfDay_month m h12 d hd'
  have hk : y % 30 < 30 := Nat.mod_lt _ (by decide)
  have hcode := u32_tsh hk hw
  have hshift := hijShift_range t
  rw [hijDay] at hsmall ⊢
  dsimp only at hsmall ⊢
  generalize hdoys : hijMonthDays.getD (m + 1) 0 + (d + 1) = doy at *
  generalize hf : u32 (y % 30 * 1063100 + tsh t) / 3000 = f at *
  have hfle : f ≤ 10276 := by omega
  have hr : (y / 30 * 10631 + f + doy) % 10631 = f + doy := by omega
  have hc : (y / 30 * 10631 + f + doy) / 10631 = y / 30 := by omega
  have hpos : f + doy ≠ 0 := by omega
  have hkd : (3000 * ((f + doy : Nat) : Int) - hijShift t).toNat / 1063100 = y % 30 := by omega
  simp only [hijOfDay]
  rw [hr, hc, if_neg hpos, hijOfDay_year_word t (by omega) (by omega), hkd, Int.sub_zero,
    u32OfInt_ofNat (by omega), hf, Int.add_zero,
    show ((f + doy : Nat) : Int) - (f : Nat) = (doy : Nat) by omega, u32OfInt_ofNat (by omega),
    u32_of_lt (n := 10000 * doy + 285001) (by omega), hmonth,
    show 295001 * ((m + 1 : Nat) : Int) - 290000 = (295001 * (m + 1) - 290000 : Nat) by omega,
    u32OfInt_ofNat (by omega), ← hbefore, ← hdoys,
    show ((hijMonthDays.getD (m + 1) 0 + (d + 1) : Nat) : Int) - (hijMonthDays.getD (m + 1) 0 : Nat) =
      (d + 1 : Nat) by omega, u32OfInt_ofNat (by omega), Nat.div_add_mod, u32_of_lt hy]

/-- The day counted for a date is in the cycle of its year, or wraps. -/
theorem hijDay_bounds (t : HijTyp) (h : Ymd) :
    h.y / 30 * 10631 ≤ hijDay t h ∧
      hijDay t h ≤ h.y / 30 * 10631 + 1431655 + (hijMonthDays.getD h.m 0 + h.d) := by
  have hu := u32_lt (h.y % 30 * 1063100 + tsh t)
  unfold hijDay
  omega

/-- **A Hijri date comes back from its day number** unless it is the last of a leap year, or
of a year whose shift wraps, or the count itself wraps. -/
theorem mjd2hij_hij2mjd_iff {t : HijTyp} {e : HijEpo} {h : Ymd} (hv : HijValid t h)
    (hy : h.y < 4294967296) :
    mjd2hij t e (hij2mjd t e h) = h ↔
      ¬ (h.m = 12 ∧ h.d = 30) ∧ ¬ HijWraps t h.y ∧ hijDayNo t h + 354 < 4294967296 := by
  rw [mjd2hij_hij2mjd_day]
  constructor
  · intro heq
    have hz := u32_lt (hijDay t h)
    have hcyc : u32 (hijDay t h) % 10631 ≠ 0 := by
      intro h0
      have hm := hijOfDay_cycle t h0
      rw [heq] at hm
      exact absurd hv.2.2.1 (Nat.not_le.mpr hm)
    have hyear := hijOfDay_y t hz hcyc
    have hlast := hijOfDay_ne_last t (u32 (hijDay t h))
    rw [heq] at hyear hlast
    obtain ⟨hlo, hhi⟩ := hijDay_bounds t h
    have hdoy := hv.doy_le
    have hlt : hijDay t h < 4294967296 := by
      unfold u32 at hyear
      omega
    rw [u32_of_lt hlt] at hyear
    have hw : ¬ HijWraps t h.y := by
      rintro ⟨rfl, h0⟩
      rw [hijDay, h0, show u32 (0 * 1063100 + tsh .IV) / 3000 = 1431655 from rfl] at hyear
      omega
    exact ⟨hlast, hw, hijDay_eq hv.1 hw ▸ hlt⟩
  · rintro ⟨hlast, hw, hsmall⟩
    rw [← hijDay_eq hv.1 hw] at hsmall
    rw [u32_of_lt hsmall]
    exact hijOfDay_hijDay hv hy hlast hw hsmall

theorem mjd2hij_hij2mjd_leap :
    mjd2hij .I .civil (hij2mjd .I .civil ⟨1442, 12, 29⟩) = ⟨1442, 12, 29⟩ :=
  (mjd2hij_hij2mjd_iff (by decide) (show 1442 < 4294967296 by decide)).mpr
    ⟨by decide, by decide, by
      rw [← hijDay_eq (by decide) (by decide)]
      decide⟩

/-- The last day of a leap year comes back in a thirteenth month. -/
theorem mjd2hij_hij2mjd_last :
    ¬ ∀ (t : HijTyp) (e : HijEpo) (h : Ymd), HijValid t h → h.y < 4294967296 →
      mjd2hij t e (hij2mjd t e h) = h := by
  intro hall
  exact absurd (hall .I .civil ⟨1442, 12, 30⟩ (by decide) (show 1442 < 4294967296 by decide))
    (by decide)

/-! ### The lengths of months -/

/-- The month that follows a month. -/
def nextMonth (y m : Nat) : Nat × Nat := if m < 12 then (y, m + 1) else (y + 1, 1)

/-- The days counted before a year of the cycle. -/
def hijCycleDay (t : HijTyp) (k : Nat) : Nat :=
  k / 30 * 10631 + u32 (k % 30 * 1063100 + tsh t) / 3000

theorem hijDay_cycle (t : HijTyp) (c k m d : Nat) :
    hijDay t ⟨30 * c + k, m, d⟩ =
      10631 * c + hijCycleDay t k + (hijMonthDays.getD m 0 + d) := by
  rw [hijDay, hijCycleDay, show (30 * c + k) / 30 = c + k / 30 by omega,
    show (30 * c + k) % 30 = k % 30 by omega]
  ring

theorem ndimHij_cycle (t : HijTyp) (c k m : Nat) : ndimHij t (30 * c + k) m = ndimHij t k m := by
  have hinty : hijIntyP t (30 * c + k) = hijIntyP t k := by
    unfold hijIntyP
    rw [show (30 * c + k) % 30 = k % 30 by omega]
  rw [ndimHij, ndimHij, hinty]

/-- The month within a year is as long as the days before the next one say. -/
theorem ndimHij_month (t : HijTyp) (y : Nat) : ∀ m < 12, 1 ≤ m →
    (hijMonthDays.getD (m + 1) 0 : Int) - hijMonthDays.getD m 0 = ndimHij t y m := by
  intro m h12 h1
  have hinty : ¬ (m = 12 ∧ hijIntyP t y = true) := by omega
  rw [ndimHij, if_neg hinty]
  interval_cases m <;> rfl

/-- The last month of each year of the cycle. -/
theorem ndimHij_year (t : HijTyp) : ∀ k < 30,
    (u32OfInt ((hijCycleDay t (k + 1) : Int) - hijCycleDay t k - 325) = ndimHij t k 12 ↔
      ¬ (t = .IV ∧ (k = 29 ∨ k = 0))) := by
  cases t <;> decide

/-- The months of the arithmetic calendars. -/
theorem ndimHij_eq_iff (t : HijTyp) (e : HijEpo) {y m : Nat} (h1 : 1 ≤ m) (h12 : m ≤ 12) :
    ndimHij t y m = u32OfInt ((hij2mjd t e ⟨(nextMonth y m).1, (nextMonth y m).2, 1⟩ : Int) -
        hij2mjd t e ⟨y, m, 1⟩) ↔
      ¬ (t = .IV ∧ m = 12 ∧ (y % 30 = 29 ∨ y % 30 = 0)) := by
  rw [hij2mjd_sub]
  obtain ⟨c, k, hk, rfl⟩ : ∃ c k, k < 30 ∧ y = 30 * c + k :=
    ⟨y / 30, y % 30, Nat.mod_lt _ (by decide), (Nat.div_add_mod y 30).symm⟩
  rw [show (30 * c + k) % 30 = k by omega, nextMonth, ndimHij_cycle]
  split
  · rename_i hm
    have hmonth := ndimHij_month t k m hm h1
    simp only [hijDay_cycle]
    rw [show ((10631 * c + hijCycleDay t k + (hijMonthDays.getD (m + 1) 0 + 1) : Nat) : Int) -
      (10631 * c + hijCycleDay t k + (hijMonthDays.getD m 0 + 1) : Nat) = (ndimHij t k m : Nat) by
        push_cast
        omega]
    have hlt : ndimHij t k m < 4294967296 := by
      unfold ndimHij
      split <;> omega
    rw [u32OfInt_ofNat hlt]
    simp only [true_iff]
    omega
  · obtain rfl : m = 12 := by omega
    have hyear := ndimHij_year t k hk
    rw [show 30 * c + k + 1 = 30 * c + (k + 1) by omega]
    simp only [hijDay_cycle]
    rw [show ((10631 * c + hijCycleDay t (k + 1) + (hijMonthDays.getD 1 0 + 1) : Nat) : Int) -
      (10631 * c + hijCycleDay t k + (hijMonthDays.getD 12 0 + 1) : Nat) =
        (hijCycleDay t (k + 1) : Int) - hijCycleDay t k - 325 by
        simp only [hijMonthDays]
        push_cast
        simp
        omega]
    simp only [true_and]
    rw [← hyear]
    exact eq_comm

/-- The months of a table that have an end in it. -/
def MonthTable.Covers (cal : MonthTable) (y m : Nat) : Prop :=
  1 ≤ y ∧ cal.sm ≤ (y - 1) * 12 + (m - 1) ∧ (y - 1) * 12 + (m - 1) + 1 < cal.sm + cal.nm

/-- The index of a month that is not before the table. -/
theorem htIndex_eq {cal : MonthTable} {y m i : Nat} (hy : 1 ≤ y) (h1 : 1 ≤ m)
    (hi : (y - 1) * 12 + (m - 1) = cal.sm + i) (hlt : i < 4294967296) : htIndex cal y m = i := by
  rw [htIndex, show ((y : Int) - 1) * 12 + ((m : Int) - 1) - cal.sm = (i : Nat) by omega]
  exact u32OfInt_ofNat hlt

/-- The first of a month of the table is its transition. -/
theorem ht2mjd_first {cal : MonthTable} {y m : Nat} (h : htIndex cal y m < cal.nm) :
    ((ht2mjd cal ⟨y, m, 1⟩ : Nat) : Int) ≡ cal.mt.getD (htIndex cal y m) 0 [ZMOD 4294967296] := by
  rw [ht2mjd, if_neg (Nat.not_le.mpr h)]
  refine (u32OfInt_modEq _).trans ?_
  simp [Int.ModEq.refl]

theorem nm_ummulqura : datUmmulqura.nm < 4294967296 := by decide +kernel

theorem nm_diyanet : datDiyanet.nm < 4294967296 := by decide +kernel

/-- The months of a table. -/
theorem ndimHt_eq {cal : MonthTable} {y m : Nat} (hcal : cal.nm < 4294967296) (h1 : 1 ≤ m)
    (h12 : m ≤ 12) (h : cal.Covers y m) :
    ndimHt cal y m = u32OfInt ((ht2mjd cal ⟨(nextMonth y m).1, (nextMonth y m).2, 1⟩ : Int) -
      ht2mjd cal ⟨y, m, 1⟩) := by
  obtain ⟨hy, hfirst, hlast⟩ := h
  obtain ⟨i, hi⟩ : ∃ i, (y - 1) * 12 + (m - 1) = cal.sm + i :=
    ⟨(y - 1) * 12 + (m - 1) - cal.sm, by omega⟩
  have hthis : htIndex cal y m = i := htIndex_eq hy h1 hi (by omega)
  have hnext : htIndex cal (nextMonth y m).1 (nextMonth y m).2 = i + 1 := by
    rw [nextMonth]
    split
    · exact htIndex_eq hy (Nat.succ_pos m) (by dsimp only; omega) (by omega)
    · exact htIndex_eq (Nat.succ_pos y) le_rfl (by dsimp only; omega) (by omega)
  have hthis' := ht2mjd_first (show htIndex cal y m < cal.nm by omega)
  have hnext' := ht2mjd_first
    (show htIndex cal (nextMonth y m).1 (nextMonth y m).2 < cal.nm by omega)
  rw [ndimHt, hthis, u32_of_lt (by omega), if_neg (by omega)]
  rw [hthis] at hthis'
  rw [hnext] at hnext'
  exact u32OfInt_congr (hnext'.sub hthis').symm

/-- The months of Gregorian years between the centuries that are no leap years. -/
theorem ndimGreg_first {y m : Nat} (hy : 1901 ≤ y ∧ y ≤ 2099) (h1 : 1 ≤ m) (h12 : m ≤ 12) :
    ndimGreg y m = u32OfInt ((g2mjd ⟨(nextMonth y m).1, (nextMonth y m).2, 1⟩ : Int) -
      g2mjd ⟨y, m, 1⟩) := by
  have hdays : ndimGreg y m = monthDays y m := by
    refine ndimGreg_eq h1 h12 fun _ h4 => ?_
    unfold Gregorian.Leap
    omega
  have hnext : Gregorian.Valid (nextMonth y m).1 (nextMonth y m).2 1 ∧ (nextMonth y m).1 < 9000 ∧
      dayNo (nextMonth y m).1 (nextMonth y m).2 1 = dayNo y m 1 + monthDays y m := by
    have hmonth : before Gregorian.len (Gregorian.monthNo y m + 1) =
        before Gregorian.len (Gregorian.monthNo y m) + monthDays y m := by
      rw [Months.before_succ, Gregorian.len_monthNo h1 h12]
    unfold dayNo Months.dayNo
    rw [nextMonth]
    split
    · rename_i hm
      refine ⟨Gregorian.valid_first y (Nat.succ_pos m) hm, show y < 9000 by omega, ?_⟩
      dsimp only
      rw [show Gregorian.monthNo y (m + 1) = Gregorian.monthNo y m + 1 by
        unfold Gregorian.monthNo; omega]
      omega
    · refine ⟨Gregorian.valid_first (y + 1) le_rfl (show 1 ≤ 12 by decide),
        show y + 1 < 9000 by omega, ?_⟩
      dsimp only
      rw [show Gregorian.monthNo (y + 1) 1 = Gregorian.monthNo y m + 1 by
        unfold Gregorian.monthNo; omega]
      omega
  obtain ⟨hvalid, hsmall, hno⟩ := hnext
  rw [g2mjd_eq hsmall hvalid, g2mjd_eq (by omega) (Gregorian.valid_first y h1 h12), hdays, hno]
  refine Eq.trans ?_ (u32OfInt_congr ((u32OfInt_modEq _).sub (u32OfInt_modEq _)).symm)
  have hrange := (Gregorian.monthDays_range y m).2
  rw [show ((dayNo y m 1 + monthDays y m : Nat) : Int) - 678941 - ((dayNo y m 1 : Int) - 678941) =
    (monthDays y m : Nat) by push_cast; ring]
  exact (u32OfInt_ofNat (by omega)).symm

/-- The months that a scale covers. -/
def Scale.Covers (s : Scale) (y m : Nat) : Prop :=
  1 ≤ m ∧ m ≤ 12 ∧
    match s with
    | .gregorian => 1901 ≤ y ∧ y ≤ 2099
    | .hijriUmmulqura => datUmmulqura.Covers y m
    | .hijriDiyanet => datDiyanet.Covers y m
    | _ => 1 ≤ y ∧ y + 1 < 4294967296

theorem Scale.hij_spec {s : Scale} {t : HijTyp} {e : HijEpo} (h : s.hij = some (t, e)) :
    (t = .IV ↔ s = .hijriIVA ∨ s = .hijriIVC) ∧ (∀ y m, echsScaleNdim s y m = ndimHij t y m) ∧
      ∀ h, scaleToMjd s h = hij2mjd t e h := by
  cases s <;> simp only [Scale.hij, Option.some.injEq, Prod.mk.injEq, reduceCtorEq] at h <;>
    obtain ⟨rfl, rfl⟩ := h <;> exact ⟨by decide, fun _ _ => rfl, fun _ => rfl⟩

/-- **The months are as long as the day numbers say**, but for the last ones of two years
in each cycle of type IV. -/
theorem echsScaleNdim_eq_iff {s : Scale} {y m : Nat} (h : s.Covers y m) :
    echsScaleNdim s y m = u32OfInt
        ((scaleToMjd s ⟨(nextMonth y m).1, (nextMonth y m).2, 1⟩ : Int) - scaleToMjd s ⟨y, m, 1⟩) ↔
      ¬ ((s = .hijriIVA ∨ s = .hijriIVC) ∧ m = 12 ∧ (y % 30 = 29 ∨ y % 30 = 0)) := by
  obtain ⟨h1, h12, h⟩ := h
  rcases hs : s.hij with _ | ⟨t, e⟩
  · cases s with
    | gregorian => exact iff_of_true (ndimGreg_first h h1 h12) fun hn => absurd hn.1 (by decide)
    | hijriUmmulqura =>
        exact iff_of_true (ndimHt_eq nm_ummulqura h1 h12 h) fun hn => absurd hn.1 (by decide)
    | hijriDiyanet =>
        exact iff_of_true (ndimHt_eq nm_diyanet h1 h12 h) fun hn => absurd hn.1 (by decide)
    | _ => cases hs
  · obtain ⟨htyp, hndim, hmjd⟩ := Scale.hij_spec hs
    rw [hndim, hmjd, hmjd, ← htyp]
    exact ndimHij_eq_iff t e h1 h12

theorem echsScaleNdim_eq_first :
    echsScaleNdim .hijriIVC 30 11 = u32OfInt
      ((scaleToMjd .hijriIVC ⟨(nextMonth 30 11).1, (nextMonth 30 11).2, 1⟩ : Int) -
        scaleToMjd .hijriIVC ⟨30, 11, 1⟩) :=
  (echsScaleNdim_eq_iff (s := .hijriIVC) (by unfold Scale.Covers; omega)).mpr (by decide)

/-- The last month of the 29th year seems to take thousands of years. -/
theorem echsScaleNdim_eq_short : ¬ ∀ s : Scale, ∀ y m : Nat, s.Covers y m →
    echsScaleNdim s y m = u32OfInt
      ((scaleToMjd s ⟨(nextMonth y m).1, (nextMonth y m).2, 1⟩ : Int) -
        scaleToMjd s ⟨y, m, 1⟩) := by
  intro hall
  exact absurd (hall .hijriIVC 29 12 (by unfold Scale.Covers; omega)) (by decide)

end Echse
