/-
Counted weekdays: `ymcw_get_dom` for those of a month and `fill_yly_ycw` for those of a year.

Both go by the weekday that the month or the year begins with.  The count of a weekday in
a month is right, so nothing that does not exist is found.  In a year it is left to whoever
asks: a 53rd weekday is looked for in each, and a day past the year's end is put in as well.
-/
import Echse.Proofs.Cands
import Echse.Lib.YearDates

namespace Echse

open Gregorian (Leap monthDays dayNo leapDay monthWeekdays yearWeekdays yearStart yearLen IsYearDay)
open Picks (pick)

/-- The years that the rule of four is meant for. -/
theorem commonRule_of_range {y : Nat} (h : 1901 ≤ y ∧ y ≤ 2099) : CommonRule y := by
  intro h4
  exact ⟨h4, by omega⟩

/-- A month whose length `__get_ndom` knows: not the February of a century that is no leap year. -/
structure RightMonth (y m : Nat) : Prop where
  year : 1 ≤ y ∧ y < 1073741824
  month : 1 ≤ m ∧ m ≤ 12
  len : ndimGreg y m = monthDays y m

theorem rightMonth_of_range {y m : Nat} (hy : 1901 ≤ y ∧ y ≤ 2099) (hm : 1 ≤ m ∧ m ≤ 12) :
    RightMonth y m :=
  ⟨by omega, hm, ndimGreg_eq hm.1 hm.2 fun _ => commonRule_of_range hy⟩

/-! ### Weekdays of a month -/

/-- **How often a weekday comes in a month**, the first of them being `a` days from its start. -/
theorem getMcnt_eq (y : Nat) {m : Nat} (hm : 1 ≤ m ∧ m ≤ 12) {w a : Nat} (hw : 1 ≤ w ∧ w ≤ 7)
    (ha : a = (w + 7 - ymdGetWday y m 1) % 7) : getMcnt y m w = (getNdom y m + (6 - a)) / 7 := by
  have hn : 28 ≤ getNdom y m ∧ getNdom y m ≤ 31 := ndimGreg_range y hm.1 hm.2
  have hd := ymdGetWday_range y m 1
  unfold getMcnt wdaySun wdayMir
  dsimp only
  generalize ymdGetWday y m 1 = wd1 at ha hd ⊢
  generalize getNdom y m = md at hn ⊢
  by_cases h7 : w = 7
  · rw [if_pos h7]
    split <;> omega
  · rw [if_neg h7]
    split <;> omega

/-- The month table and the month's length. -/
theorem gregMdays_eq (y : Nat) {m : Nat} (hm : 1 ≤ m ∧ m ≤ 12) :
    gregMdays.getD m 0 = getNdom y m ∨
      (getNdom y m = 29 ∧ gregMdays.getD m 0 = 28 ∧ y % 4 = 0) := by
  obtain ⟨h1, h12⟩ := hm
  unfold getNdom ndimGreg
  by_cases h4 : y % 4 = 0
  · interval_cases m <;> simp [gregMdays, h4]
  · interval_cases m <;> simp [gregMdays, h4]

section Month

variable {y m w : Nat} {c : Int} (hright : RightMonth y m) (hw : 1 ≤ w ∧ w ≤ 7)
include hright hw

/-- The `c`-th weekday of a month in numbers, the first of them being `a` days from its start. -/
theorem pick_monthWeekdays {a : Nat} (ha : a = (w + 7 - ymdGetWday y m 1) % 7) (c : Int) :
    pick (monthWeekdays y m w) c =
      if 0 < c ∧ c ≤ getMcnt y m w then some (a + 7 * (c - 1).toNat + 1)
      else if c < 0 ∧ -c ≤ getMcnt y m w then some (a + 7 * (getMcnt y m w + c).toNat + 1)
      else none := by
  obtain ⟨hy, hm, hlen⟩ := hright
  have hwd : ymdGetWday y m 1 = Gregorian.weekday (dayNo y m 1) :=
    wdayGreg_eq hy.1 hy.2 hm.1 hm.2 (by decide)
  have hcount := getMcnt_eq y hm hw ha
  refine Gregorian.pick_weekdaysAfter hw c ?_ (hlen ▸ (hcount : _ = (ndimGreg y m + (6 - a)) / 7))
  rw [ha, hwd]
  rfl

/-- What `ymcw_get_dom` finds. -/
theorem ymcwGetDom_pick (hc : c ≠ 0) : ymcwGetDom y m c w = (pick (monthWeekdays y m w) c).getD 0 := by
  have hm := hright.month
  have hfirst := ymdGetWday_range y m 1
  have hrange : 28 ≤ getNdom y m ∧ getNdom y m ≤ 31 := ndimGreg_range y hm.1 hm.2
  obtain ⟨a, ha⟩ : ∃ a, a = (w + 7 - ymdGetWday y m 1) % 7 := ⟨_, rfl⟩
  have hcount := getMcnt_eq y hm hw ha
  have ha6 : a ≤ 6 := by omega
  -- a day that is counted up to the last one is a day of the month
  have htgt : ∀ k : Int, 1 ≤ k → k ≤ getMcnt y m w →
      (if gregMdays.getD m 0 < u32OfInt (1 + (a : Int) + (k - 1) * 7) then
        if u32OfInt (1 + (a : Int) + (k - 1) * 7) = 29 ∧ y % 4 = 0 then
          u32OfInt (1 + (a : Int) + (k - 1) * 7)
        else u32OfInt ((u32OfInt (1 + (a : Int) + (k - 1) * 7) : Int) - 7)
      else u32OfInt (1 + (a : Int) + (k - 1) * 7)) = a + 7 * (k - 1).toNat + 1 := by
    intro k h1 hk
    have hu : u32OfInt (1 + (a : Int) + (k - 1) * 7) = a + 7 * (k - 1).toNat + 1 := by
      rw [show 1 + (a : Int) + (k - 1) * 7 = ((a + 7 * (k - 1).toNat + 1 : Nat) : Int) by omega]
      exact u32OfInt_ofNat (by omega)
    rw [hu]
    rcases gregMdays_eq y hm with heq | ⟨h29, h28, h4⟩
    · rw [if_neg (by omega)]
    · by_cases hlt : gregMdays.getD m 0 < a + 7 * (k - 1).toNat + 1
      · rw [if_pos hlt, if_pos ⟨by omega, h4⟩]
      · rw [if_neg hlt]
  rw [pick_monthWeekdays hright hw ha]
  unfold ymcwGetDom
  dsimp only
  rw [← ha]
  by_cases hpos : 0 < c
  · rw [if_neg (by omega : ¬ (c < 0 ∧ c + (getMcnt y m w : Int) + 1 ≤ 0)),
      if_neg (by omega : ¬ c < 0)]
    by_cases hle : c ≤ getMcnt y m w
    · rw [if_neg (by omega), htgt c (by omega) hle, if_pos ⟨hpos, hle⟩]
      rfl
    · rw [if_pos (by omega), if_neg (by omega), if_neg (by omega)]
      rfl
  · have hneg : c < 0 := by omega
    rw [if_neg (by omega : ¬ (getMcnt y m w : Int) < c), if_pos hneg,
      if_neg (by omega : ¬ (0 < c ∧ c ≤ getMcnt y m w))]
    by_cases hle : -c ≤ getMcnt y m w
    · rw [if_neg (by omega), htgt _ (by omega) (by omega), if_pos ⟨hneg, hle⟩, Option.getD_some]
      omega
    · rw [if_pos ⟨hneg, by omega⟩, if_neg (by omega)]
      rfl

end Month

/-- **The `c`-th weekday `w` of a month**, counted from its end if `c` is negative. -/
theorem ymcwGetDom_eq {y m w : Nat} {c : Int} (hy : 1901 ≤ y ∧ y ≤ 2099) (hm : 1 ≤ m ∧ m ≤ 12)
    (hw : 1 ≤ w ∧ w ≤ 7) (hc : c ≠ 0) :
    ymcwGetDom y m c w = (pick (monthWeekdays y m w) c).getD 0 ∧
      (ymcwGetDom y m c w = 0 ↔ pick (monthWeekdays y m w) c = none) := by
  have hright := rightMonth_of_range hy hm
  have hdom := ymcwGetDom_pick hright hw hc
  refine ⟨hdom, ?_⟩
  rw [hdom, pick_monthWeekdays hright hw rfl]
  split
  · simp
  · split <;> simp

/-- The last Sunday of a leap February, and a fifth Friday that is not there. -/
theorem ymcwGetDom_eq_february :
    (ymcwGetDom 2032 2 (-1) 7 = (pick (monthWeekdays 2032 2 7) (-1)).getD 0 ∧
        (ymcwGetDom 2032 2 (-1) 7 = 0 ↔ pick (monthWeekdays 2032 2 7) (-1) = none)) ∧
      (ymcwGetDom 2032 2 5 5 = (pick (monthWeekdays 2032 2 5) 5).getD 0 ∧
        (ymcwGetDom 2032 2 5 5 = 0 ↔ pick (monthWeekdays 2032 2 5) 5 = none)) :=
  ⟨ymcwGetDom_eq ⟨by decide, by decide⟩ ⟨by decide, by decide⟩ ⟨by decide, by decide⟩ (by decide),
    ymcwGetDom_eq ⟨by decide, by decide⟩ ⟨by decide, by decide⟩ ⟨by decide, by decide⟩ (by decide)⟩

/-! ### Days of a year -/

theorem leap4_eq {y : Nat} (hy : 1901 ≤ y ∧ y ≤ 2099) : leap4 y = leapDay y :=
  (leapDay_of_commonRule (commonRule_of_range hy)).symm

/-- The conversion finds the date of each day of the year. -/
theorem isYearDay_ydToMd {y n : Nat} (hy : 1901 ≤ y ∧ y ≤ 2099) (h1 : 1 ≤ n) (hn : n ≤ yearLen y) :
    IsYearDay y n (ydToMd y n).m (ydToMd y n).d := by
  have hleap := leap4_eq hy
  obtain ⟨m1, m12, d1, d2, hk, -⟩ := ydToMd_spec (y := y) h1 (by rw [hleap]; exact hn)
  rw [ndimGreg_eq m1 m12 fun _ => commonRule_of_range hy] at d2
  rw [hleap] at hk
  exact (Gregorian.isYearDay_iff ⟨m1, m12, d1, d2⟩).mpr hk

/-- The code of the `n`-th day of a year. -/
def YearDayCode (y n : Nat) (x : Int) : Prop := ∃ m d, IsYearDay y n m d ∧ x = codeOf m d

theorem yearDayCode_iff {y n : Nat} (hy : 1901 ≤ y ∧ y ≤ 2099) (h1 : 1 ≤ n) (hn : n ≤ yearLen y)
    (x : Int) : YearDayCode y n x ↔ x = codeOf (ydToMd y n).m (ydToMd y n).d := by
  have hday := isYearDay_ydToMd hy h1 hn
  constructor
  · rintro ⟨m, d, h, rfl⟩
    obtain ⟨rfl, rfl⟩ := h.inj hday
    rfl
  · intro hx
    exact ⟨_, _, hday, hx⟩

theorem codeOf_inj {m d m' d' : Nat} (hd : 1 ≤ d ∧ d ≤ 31) (hd' : 1 ≤ d' ∧ d' ≤ 31)
    (h : codeOf m d = codeOf m' d') : m = m' ∧ d = d' := by
  unfold codeOf at h
  omega

/-- A code stands for one day of the year. -/
theorem YearDayCode.inj {y n n' : Nat} {x : Int} (h : YearDayCode y n x) (h' : YearDayCode y n' x) :
    n = n' := by
  obtain ⟨m, d, hday, rfl⟩ := h
  obtain ⟨m', d', hday', hx⟩ := h'
  have hlen := Gregorian.monthDays_range y m
  have hlen' := Gregorian.monthDays_range y m'
  obtain ⟨⟨h1, h12, hd1, hd2⟩, hno⟩ := hday
  obtain ⟨⟨h1', h12', hd1', hd2'⟩, hno'⟩ := hday'
  obtain ⟨rfl, rfl⟩ := codeOf_inj ⟨hd1, by omega⟩ ⟨hd1', by omega⟩ hx
  omega

/-- Days of the year are told apart by their codes. -/
theorem yearDayCodes_iff {y : Nat} (hy : 1901 ≤ y ∧ y ≤ 2099) {P Q : Nat → Prop}
    (hP : ∀ n, P n → 1 ≤ n ∧ n ≤ yearLen y) (hQ : ∀ n, Q n → 1 ≤ n ∧ n ≤ yearLen y) :
    (∀ x, (∃ n, P n ∧ YearDayCode y n x) ↔ ∃ n, Q n ∧ YearDayCode y n x) ↔ ∀ n, P n ↔ Q n := by
  refine ⟨fun h n => ?_, fun h x => exists_congr fun n => and_congr_left fun _ => h n⟩
  have hof : ∀ {P Q : Nat → Prop}, (∀ x, (∃ n, P n ∧ YearDayCode y n x) →
      ∃ n, Q n ∧ YearDayCode y n x) → (P n → 1 ≤ n ∧ n ≤ yearLen y) → P n → Q n := by
    intro P Q hPQ hrange hn
    obtain ⟨h1, hle⟩ := hrange hn
    have hcode : YearDayCode y n (codeOf (ydToMd y n).m (ydToMd y n).d) :=
      (yearDayCode_iff hy h1 hle _).mpr rfl
    obtain ⟨k, hk, hkcode⟩ := hPQ _ ⟨n, hn, hcode⟩
    rwa [hcode.inj hkcode]
  exact ⟨hof (fun x => (h x).mp) (hP n), hof (fun x => (h x).mpr) (hQ n)⟩

theorem adds_yearDay {y n : Nat} (hy : 1901 ≤ y ∧ y ≤ 2099) (h1 : 1 ≤ n) (hn : n ≤ yearLen y) :
    Adds (fun c => if (ydToMd y n).m = 0 then c
      else assBi383 c (packCand (ydToMd y n).m (ydToMd y n).d)) (YearDayCode y n) := by
  have hday := isYearDay_ydToMd hy h1 hn
  have hlen := (Gregorian.yearLen_range y).2
  refine (adds_ydToMd (y := y) (t := n) (by omega) (by omega) hday.1.2.1).congr fun x => ?_
  rw [yearDayCode_iff hy h1 hn]
  exact ⟨fun h => h.2, fun h => ⟨by have := hday.1.1; omega, h⟩⟩

/-! ### Weekdays of a year -/

/-- The weekdays `w` of a year, `count` of them, the first `a` days from New Year. -/
theorem pick_yearWeekdays {y w a count : Nat} (hy : 1901 ≤ y ∧ y ≤ 2099) (hw : 1 ≤ w ∧ w ≤ 7)
    (ha : a = (w + 7 - ymdGetWday y 1 1) % 7) (hcount : count = (yearLen y + (6 - a)) / 7) (c : Int) :
    pick (yearWeekdays y w) c =
      if 0 < c ∧ c ≤ count then some (a + 7 * (c - 1).toNat + 1)
      else if c < 0 ∧ -c ≤ count then some (a + 7 * (count + c).toNat + 1)
      else none := by
  have hwd : ymdGetWday y 1 1 = Gregorian.weekday (dayNo y 1 1) :=
    wdayGreg_eq (by omega) (by omega) le_rfl (by decide) (by decide)
  refine Gregorian.pick_weekdaysAfter hw c ?_ hcount
  rw [ha, hwd]
  rfl

/-- There are 52 of them or 53, and `ycw_get_yday` knows when there are 53. -/
theorem yearWeekdays_count {y a count : Nat} (hy : 1901 ≤ y ∧ y ≤ 2099) (ha : a ≤ 6)
    (hcount : count = (yearLen y + (6 - a)) / 7) :
    (count = 52 ∨ count = 53) ∧ ((a = 0 ∨ (a = 1 ∧ y % 4 = 0)) ↔ count = 53) := by
  have hleap : yearLen y = 365 + if y % 4 = 0 then 1 else 0 := by
    unfold yearLen
    rw [leapDay_of_commonRule (commonRule_of_range hy)]
  have hrange := Gregorian.yearLen_range y
  refine ⟨by omega, ?_⟩
  rw [hcount, hleap]
  split <;> omega

/-- What `ycw_get_yday` makes of a count: the day of the year if there is one, and else a day
past the end, or one before New Year as an `unsigned int`. -/
theorem ycwGetYday_eq {y w a : Nat} {c : Int} (hy : 1901 ≤ y ∧ y ≤ 2099) (hw : 1 ≤ w ∧ w ≤ 7)
    (hc : c ≠ 0 ∧ -53 ≤ c ∧ c ≤ 53) (ha : a = (w + 7 - ymdGetWday y 1 1) % 7) :
    ycwGetYday y c w =
      match pick (yearWeekdays y w) c with
      | some n => n
      | none => if 0 < c then a + 365 else u32OfInt ((a : Int) - 6) := by
  obtain ⟨count, hcount⟩ : ∃ count, count = (yearLen y + (6 - a)) / 7 := ⟨_, rfl⟩
  have hj := ymdGetWday_range y 1 1
  have hdiff : (if ymdGetWday y 1 1 ≤ w then w - ymdGetWday y 1 1 else 7 + w - ymdGetWday y 1 1) = a := by
    split <;> omega
  have hpick := pick_yearWeekdays hy hw ha hcount c
  obtain ⟨h5253, h53⟩ := yearWeekdays_count hy (by omega : a ≤ 6) hcount
  unfold ycwGetYday
  dsimp only
  rw [hdiff]
  by_cases hpos : 0 < c
  · have hu : u32OfInt (7 * (c - 1) + (a : Int) + 1) = a + 7 * (c - 1).toNat + 1 := by
      rw [show 7 * (c - 1) + (a : Int) + 1 = ((a + 7 * (c - 1).toNat + 1 : Nat) : Int) by omega]
      exact u32OfInt_ofNat (by omega)
    rw [if_pos hpos, hu]
    by_cases hle : c ≤ count
    · rw [if_pos ⟨hpos, hle⟩] at hpick
      rw [hpick]
    · rw [if_neg (by omega), if_neg (by omega)] at hpick
      rw [hpick]
      dsimp only
      rw [if_pos hpos]
      omega
  · have hneg : c < 0 := by omega
    rw [if_neg hpos, if_pos hneg]
    rw [if_neg (by omega)] at hpick
    by_cases hle : -c ≤ count
    · rw [if_pos ⟨hneg, hle⟩] at hpick
      rw [hpick]
      dsimp only
      by_cases h : a = 0 ∨ (a = 1 ∧ y % 4 = 0)
      · have hcnt := h53.mp h
        rw [if_pos h,
          show 7 * (53 + c) + (a : Int) + 1 = ((a + 7 * (count + c).toNat + 1 : Nat) : Int) by omega]
        exact u32OfInt_ofNat (by omega)
      · have hcnt : count = 52 := h5253.resolve_right fun h' => h (h53.mpr h')
        rw [if_neg h,
          show 7 * (53 + c) + (a : Int) + 1 - 7 = ((a + 7 * (count + c).toNat + 1 : Nat) : Int) by omega]
        exact u32OfInt_ofNat (by omega)
    · have hcnt : count = 52 := by omega
      rw [if_neg (by omega)] at hpick
      rw [hpick, if_neg fun h => by have := h53.mp h; omega]
      dsimp only
      rw [if_neg hpos, show 7 * (53 + c) + (a : Int) + 1 - 7 = (a : Int) - 6 by omega]

theorem intOfWord_of_small {n : Nat} (h : n < 2147483648) : intOfWord 32 n = (n : Int) := by
  unfold intOfWord
  split <;> omega

/-- One counted weekday in a set. -/
theorem fillYlyYcw_one (cand : Bitints) (y : Nat) {w : Nat} (hw : w ≤ 7) {c : Int} (hc : c ≠ 0) :
    fillYlyYcw cand y (assBi447 .nil (packCd ⟨c, w⟩)) =
      if ycwGetYday y c w = 0 then cand
      else if (ydToMd y (intOfWord 32 (ycwGetYday y c w))).m = 0 then cand
      else assBi383 cand (packCand (ydToMd y (intOfWord 32 (ycwGetYday y c w))).m
        (ydToMd y (intOfWord 32 (ycwGetYday y c w))).d) := by
  have hlist : bi447List (assBi447 .nil (packCd ⟨c, w⟩)) = [packCd ⟨c, w⟩] :=
    drain_native 14 [packCd ⟨c, w⟩] 897 0 (Nat.le_add_left 1 896)
  have hcd : unpackCd (packCd ⟨c, w⟩) = ⟨c, w⟩ := by
    unfold unpackCd packCd
    dsimp only
    congr 1 <;> omega
  unfold fillYlyYcw
  rw [hlist, List.foldl_cons, List.foldl_nil, hcd]
  dsimp only
  rw [if_neg hc]

/-- The code of the `c`-th weekday `w` of a year. -/
def YcwCode (y w : Nat) (c : Int) (x : Int) : Prop :=
  ∃ n, pick (yearWeekdays y w) c = some n ∧ YearDayCode y n x

/-- **A counted weekday of a year is put in**, and nothing else, unless it is a 53rd that the year
does not have.  Counted from the end, this one still comes to nothing if New Year is the day
after such a weekday. -/
theorem fillYlyYcw_exact {y w : Nat} {c : Int} (hy : 1901 ≤ y ∧ y ≤ 2099) (hw : 1 ≤ w ∧ w ≤ 7)
    (hc : c ≠ 0 ∧ -53 ≤ c ∧ c ≤ 53) :
    Adds (fun cand => fillYlyYcw cand y (assBi447 .nil (packCd ⟨c, w⟩))) (YcwCode y w c) ↔
      (-52 ≤ c ∧ c ≤ 52) ∨ (yearWeekdays y w).length = 53 ∨
        (c = -53 ∧ ymdGetWday y 1 1 = w % 7 + 1) := by
  obtain ⟨a, ha⟩ : ∃ a, a = (w + 7 - ymdGetWday y 1 1) % 7 := ⟨_, rfl⟩
  obtain ⟨count, hcount⟩ : ∃ count, count = (yearLen y + (6 - a)) / 7 := ⟨_, rfl⟩
  have hj := ymdGetWday_range y 1 1
  have hlen := Gregorian.yearLen_range y
  have hpick := pick_yearWeekdays hy hw ha hcount c
  obtain ⟨h5253, h53⟩ := yearWeekdays_count hy (by omega : a ≤ 6) hcount
  have hcode := ycwGetYday_eq hy hw hc ha
  have hlength : (yearWeekdays y w).length = count := by
    unfold yearWeekdays
    rw [Gregorian.weekdaysAfter_eq _ _ hw, List.length_map, Picks.every_length (by omega)]
    rw [hcount, Picks.everyCount, ha]
    have hwd : ymdGetWday y 1 1 = Gregorian.weekday (dayNo y 1 1) :=
      wdayGreg_eq (by omega) (by omega) le_rfl (by decide) (by decide)
    rw [hwd]
    rfl
  rw [hlength]
  simp only [fillYlyYcw_one _ _ hw.2 hc.1]
  cases hp : pick (yearWeekdays y w) c with
  | some n =>
      -- the year has one
      have hn : 1 ≤ n ∧ n ≤ yearLen y := by
        have hmem := Picks.pick_mem hp
        unfold yearWeekdays Gregorian.weekdaysAfter at hmem
        have := List.mem_range'_1.mp (List.mem_filter.mp hmem).1
        omega
      rw [hp] at hcode hpick
      dsimp only at hcode
      have hint : intOfWord 32 n = (n : Int) := intOfWord_of_small (by omega)
      have hn0 : n ≠ 0 := by omega
      simp only [hcode, hint, hn0, if_false]
      constructor
      · intro _
        by_cases hsmall : -52 ≤ c ∧ c ≤ 52
        · exact Or.inl hsmall
        · refine Or.inr (Or.inl (h5253.resolve_left fun h52 => ?_))
          rw [if_neg (by omega), if_neg (by omega)] at hpick
          cases hpick
      · intro _
        refine (adds_yearDay hy hn.1 hn.2).congr fun x => ?_
        unfold YcwCode
        rw [hp]
        exact ⟨fun h => ⟨n, rfl, h⟩, fun ⟨k, hk, h⟩ => by cases hk; exact h⟩
  | none =>
      rw [hp] at hcode hpick
      have hcnt : count = 52 ∧ (c = 53 ∨ c = -53) := by
        split at hpick
        · cases hpick
        · split at hpick
          · cases hpick
          · omega
      have hnone : ∀ x, ¬ YcwCode y w c x := by
        rintro x ⟨n, hn, -⟩
        rw [hp] at hn
        cases hn
      have ha1 : a ≠ 0 ∧ (y % 4 = 0 → a ≠ 1) := by
        refine ⟨fun h => ?_, fun h4 h => ?_⟩
        · have := h53.mp (Or.inl h)
          omega
        · have := h53.mp (Or.inr ⟨h, h4⟩)
          omega
      rw [hcode]
      dsimp only
      by_cases h6 : c = -53 ∧ a = 6
      · have hz : (if 0 < c then a + 365 else u32OfInt ((a : Int) - 6)) = 0 := by
          rw [if_neg (by omega), h6.2]
          rfl
        rw [hz]
        simp only [if_true]
        exact iff_of_true (adds_nothing hnone) (Or.inr (Or.inr ⟨h6.1, by omega⟩))
      · -- a day is put in all the same
        obtain ⟨h0, hm⟩ : (if 0 < c then a + 365 else u32OfInt ((a : Int) - 6)) ≠ 0 ∧
            (ydToMd y (intOfWord 32 (if 0 < c then a + 365 else u32OfInt ((a : Int) - 6)))).m ≠ 0 := by
          have hleap := leap4_le y
          have hleap1 : leap4 y = 1 → y % 4 = 0 := by
            unfold leap4
            split <;> omega
          by_cases hpos : 0 < c
          · have hover := (ydToMd_over (y := y) (k := a - 1 - leap4 y) (by omega)).2
            rw [if_pos hpos, intOfWord_of_small (by omega),
              show ((a + 365 : Nat) : Int) = (365 : Int) + leap4 y + (a - 1 - leap4 y : Nat) + 1 by omega,
              hover]
            exact ⟨by omega, Nat.succ_ne_zero 12⟩
          · have hsmall : intOfWord 32 (u32OfInt ((a : Int) - 6)) = (a : Int) - 6 :=
              intOfWord_wordOfInt (by decide) (by norm_num; omega) (by norm_num; omega)
            rw [if_neg hpos, hsmall, ydToMd_neg (by omega) (by omega)]
            have hday := isYearDay_ydToMd (n := a + 360 + leap4 y) hy (by omega) (by
              have := leap4_eq hy
              unfold yearLen
              omega)
            rw [show (a : Int) - 6 + 366 + leap4 y = ((a + 360 + leap4 y : Nat) : Int) by omega]
            refine ⟨fun hz => ?_, by have := hday.1.1; omega⟩
            rw [hz] at hsmall
            change (0 : Int) = _ at hsmall
            omega
        refine iff_of_false (fun hadds => ?_) (by omega)
        have hmem := fun x => (hadds.mem .nil codeSet_nil x).mp
        rw [if_neg h0, if_neg hm] at hmem
        rcases hmem _ (List.mem_singleton_self _) with h | h
        · exact hnone _ h
        · cases h

/-- The last Sunday but one of a year, which has 53. -/
theorem fillYlyYcw_exact_sunday :
    Adds (fun cand => fillYlyYcw cand 2023 (assBi447 .nil (packCd ⟨-2, 7⟩))) (YcwCode 2023 7 (-2)) ↔
      (-52 ≤ (-2 : Int) ∧ (-2 : Int) ≤ 52) ∨ (yearWeekdays 2023 7).length = 53 ∨
        ((-2 : Int) = -53 ∧ ymdGetWday 2023 1 1 = 7 % 7 + 1) :=
  fillYlyYcw_exact ⟨by decide, by decide⟩ ⟨by decide, by decide⟩ ⟨by decide, by decide, by decide⟩

/-- A 53rd Monday of 2023 comes to a month 13. -/
theorem ycw_past_end :
    ¬ ∀ (y w : Nat) (c : Int), 1901 ≤ y ∧ y ≤ 2099 → 1 ≤ w ∧ w ≤ 7 → c ≠ 0 ∧ -53 ≤ c ∧ c ≤ 53 →
      Adds (fun cand => fillYlyYcw cand y (assBi447 .nil (packCd ⟨c, w⟩))) (YcwCode y w c) := by
  intro h
  have hadds := h 2023 1 53 (by decide) (by decide) (by decide)
  have hfill : fillYlyYcw .nil 2023 (assBi447 .nil (packCd ⟨53, 1⟩)) = .native [385] := by decide
  have hmem := (hadds.mem .nil codeSet_nil 385).mp
  rw [hfill] at hmem
  have hnone : pick (yearWeekdays 2023 1) 53 = none :=
    pick_yearWeekdays (a := 1) (by decide) (by decide) (by decide)
      (show 52 = (yearLen 2023 + (6 - 1)) / 7 by decide) 53
  rcases hmem (List.mem_singleton_self _) with ⟨n, hn, -⟩ | hnil
  · rw [hnone] at hn
    cases hn
  · cases hnil

end Echse
