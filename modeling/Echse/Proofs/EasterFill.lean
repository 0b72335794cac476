/-
The dates that offsets from Easter stand for.

`fill_yly_eastr` takes the weekday from the offset, Easter being a Sunday, but looks for Sunday
at the lowest bit of the mask where the offset is not negative.  And it tells dates past
the end of the year from the 367th day on, whether or not there is a 366th.
-/
import Echse.Proofs.Easter
import Echse.Proofs.MonthFill
import Echse.Proofs.MonthDays
import Echse.Proofs.SetForms

namespace Echse

open Gregorian (Leap dayNo weekday yearStart yearLen leapDay IsYearDay)

/-! ### What is asked for -/

/-- The day number of Easter Sunday. -/
def easterDay (y : Nat) : Nat := dayNo y (Computus.easter y).1 (Computus.easter y).2

/-- A date that offsets from Easter stand for, on one of the weekdays and in one of the months
and on one of the month days, where any are given. -/
structure EasterDate (y : Nat) (offs : List Int) (dow : Bitints) (months : List Nat) (days : List Int)
    (m d : Nat) : Prop where
  valid : Gregorian.Valid y m d
  offset : ∃ t ∈ offs, (dayNo y m d : Int) = easterDay y + t
  wday : bi447List dow = [] ∨ (weekday (dayNo y m d) : Int) ∈ bi447List dow
  month : months = [] ∨ m ∈ months
  day : days = [] ∨ (d : Int) ∈ days

/-- A Sunday on or after Easter that a rule with weekdays asks for. -/
def SundayMissed (y : Nat) (dow : Bitints) (months : List Nat) (days : List Int) (t : Int) : Prop :=
  (0 ≤ t ∧ 7 ∣ t) ∧ bi447List dow ≠ [] ∧ ∃ m d, EasterDate y [t] dow months days m d

/-- New Year's Day after a year of 365 days, if no months are given and the rest lets it pass. -/
def NewYearTaken (y : Nat) (dow : Bitints) (months : List Nat) (days : List Int) (t : Int) : Prop :=
  (¬ Leap y ∧ (dayNo (y + 1) 1 1 : Int) = easterDay y + t) ∧ months = [] ∧ (days = [] ∨ 1 ∈ days) ∧
    (bi447List dow = [] ∨ ((weekday (dayNo (y + 1) 1 1) : Int) ∈ bi447List dow ∧ ¬ 7 ∣ t))

/-! ### The sets -/

/-- The months of a rule. -/
def assMonths (months : List Nat) : Nat := months.foldl assBui31 0

/-- The month days of a rule. -/
def assDays (days : List Int) : Bitint := days.foldl assBi31 ⟨0, 0⟩

section Sets

variable {months : List Nat} {days : List Int} (hmonths : ∀ m ∈ months, 1 ≤ m ∧ m ≤ 12)
variable (hdays : ∀ d ∈ days, d ≠ 0 ∧ -31 ≤ d ∧ d ≤ 31)

include hmonths in
theorem assMonths_has (m : Nat) : bui31HasBit (assMonths months) m = true ↔ m ∈ months := by
  refine ((uintSet_assAll (w := 32) (P := fun m => 1 ≤ m ∧ m ≤ 12) (fun m h => by omega)
    (uintSet_zero 32 _) hmonths).2 m).trans (or_iff_left ?_)
  simp [buiHasBit]

include hmonths in
theorem assMonths_hasBits : bui31HasBits (assMonths months) = true ↔ months ≠ [] := by
  unfold bui31HasBits
  rw [bne_iff_ne]
  constructor
  · rintro h rfl
    exact h rfl
  · intro h
    obtain ⟨m, ms, rfl⟩ := List.exists_cons_of_ne_nil h
    exact buiHasBit_ne_zero ((assMonths_has hmonths m).mpr List.mem_cons_self)

include hdays in
theorem assDays_has (d : Int) : bi31HasBit (assDays days) d = true ↔ d ∈ days := by
  refine ((intSet_assAll (w := 32) (P := fun d => d ≠ 0 ∧ -31 ≤ d ∧ d ≤ 31) (by decide)
    (fun d h => by omega) (intSet_zero 32 _) hdays).2 d).trans (or_iff_left ?_)
  simp [biHasBit_zero]

include hdays in
theorem assDays_hasBits : bi31HasBits (assDays days) = true ↔ days ≠ [] := by
  unfold bi31HasBits biHasBits
  constructor
  · rintro h rfl
    exact absurd h (by decide)
  · intro h
    obtain ⟨d, ds, rfl⟩ := List.exists_cons_of_ne_nil h
    have hne := biHasBit_nonempty ((assDays_has hdays d).mpr List.mem_cons_self)
    rw [Bool.or_eq_true, bne_iff_ne, bne_iff_ne]
    tauto

include hmonths hdays in
/-- The test on a month and a day. -/
theorem mdMatchP_iff (md : Md) : mdMatchP md (assMonths months) (assDays days) = true ↔
    (months = [] ∨ md.m ∈ months) ∧ (days = [] ∨ (md.d : Int) ∈ days) := by
  have hm := assMonths_has hmonths md.m
  have hd := assDays_has hdays md.d
  have hms := assMonths_hasBits hmonths
  have hds := assDays_hasBits hdays
  unfold mdMatchP
  dsimp only
  cases hmb : bui31HasBits (assMonths months) <;> cases hdb : bi31HasBits (assDays days) <;>
    simp only [hmb, hdb] at hms hds <;> simp <;> tauto

end Sets

/-! ### The codes that come in -/

/-- The codes that an offset puts in. -/
def eastrCodes (y mon : Nat) (dom : Bitint) (mask : Nat) (t : Int) : List Int :=
  let yd := u32OfInt ((easterGetYday y : Int) + t)
  let md := ydToMd y yd
  if eastrMasked mask t ∨ yd = 0 ∨ 366 < yd ∨ md.m = 0 ∨ mdMatchP md mon dom = false then []
  else [packCand md.m md.d]

theorem assigns_fillYlyEastr {y : Nat} (hy : y < 4294967296) (s : Bitints) (mon : Nat) (dom : Bitint)
    (mask : Nat) : Assigns (fun c => fillYlyEastr c y s mon dom mask)
      ((bi383List s).flatMap (eastrCodes y mon dom mask)) := by
  have heaster : easterGetYday y ≠ 0 := by
    rw [easterGetYday_eq hy]
    omega
  refine assigns_foldl fun t _ c => ?_
  unfold eastrCodes
  dsimp only
  rw [if_neg heaster]
  generalize ydToMd y (u32OfInt ((easterGetYday y : Int) + t) : Nat) = md
  cases hmask : eastrMasked mask t with
  | true => simp
  | false =>
      cases hmatch : mdMatchP md mon dom with
      | false => simp
      | true =>
          simp only [Bool.not_true, Bool.false_eq_true, if_false, false_or]
          by_cases hr : u32OfInt ((easterGetYday y : Int) + t) = 0 ∨
              366 < u32OfInt ((easterGetYday y : Int) + t)
          · rw [if_pos hr, if_pos (by tauto)]
            rfl
          · by_cases hm : md.m = 0
            · rw [if_neg hr, if_pos hm, if_pos (by tauto)]
              rfl
            · rw [if_neg hr, if_neg hm, if_neg (by tauto)]
              rfl

section Day

variable {y : Nat} (hy : 1901 ≤ y ∧ y ≤ 2099)
include hy

theorem easterDay_eq : easterDay y = yearStart y + easterGetYday y := by
  have h2 : Gregorian.yearDaysBefore (leapDay y) 2 = 59 + leapDay y := rfl
  unfold easterDay yearStart
  rw [Computus.dayNo_easter, Gregorian.dayNo_eq y (by decide) (by decide), h2,
    easterGetYday_eq (by omega), leap4_eq hy]
  omega

theorem easterGetYday_bounds : 81 ≤ easterGetYday y ∧ easterGetYday y ≤ 116 := by
  have hrange := Computus.march_range y
  have hleap := leap4_le y
  rw [easterGetYday_eq (by omega)]
  omega

omit hy in
/-- The weekday of an offset. -/
theorem weekday_easter {n : Nat} {t : Int} (hn : (n : Int) = easterDay y + t) :
    (weekday n : Int) = (t - 1) % 7 + 1 := by
  have hsunday : weekday (easterDay y) = 7 := Computus.easter_sunday y
  unfold weekday at hsunday ⊢
  omega

end Day

/-- **The test on the weekday** takes the offset for it, but for Sundays that are not before Easter. -/
theorem eastrMasked_iff {dow : Bitints} (hdow : ∀ t ∈ bi447List dow, 1 ≤ t ∧ t ≤ 7) {n : Nat} {t : Int}
    (hw : (weekday n : Int) = (t - 1) % 7 + 1) : eastrMasked (wdMaskOf dow) t = false ↔
      bi447List dow = [] ∨ (weekday n : Int) ∈ bi447List dow ∧ ¬ (0 ≤ t ∧ 7 ∣ t) := by
  have hplain : plainDays dow = bi447List dow :=
    List.filter_eq_self.mpr fun z hz => decide_eq_true (hdow z hz)
  have hnone : maskPlain (wdMaskOf dow) = true ↔ bi447List dow ≠ [] := hplain ▸ maskPlain_wdMaskOf dow
  have hbit : ∀ {w : Nat}, 1 ≤ w → (maskHas (wdMaskOf dow) w = true ↔ (w : Int) ∈ bi447List dow) :=
    fun h1 => hplain ▸ testBit_wdMaskOf dow h1
  unfold eastrMasked
  by_cases hnil : bi447List dow = []
  · rw [Bool.eq_false_iff.mpr fun h => hnone.mp h hnil]
    simp [hnil]
  rw [hnone.mpr hnil, Bool.true_and]
  by_cases hneg : t < 0
  · -- counted back from a Sunday
    rw [if_neg (by omega), Bool.not_eq_false', hbit (by omega),
      show ((7 - (-t % 7).toNat : Nat) : Int) = weekday n by omega]
    simp only [hnil, false_or]
    exact (and_iff_left fun h => by omega).symm
  · rw [if_pos (by omega), Bool.not_eq_false']
    by_cases hsun : 7 ∣ t
    · -- bit 0 is for counted weekdays
      have heven : maskHas (wdMaskOf dow) 0 = false := by
        have hno : ¬ wdMaskOf dow % 2 = 1 := fun h => by
          obtain ⟨z, hz, hcount⟩ := wdMaskOf_odd.mp h
          exact hcount (hdow z hz)
        unfold maskHas
        rw [Nat.testBit_zero]
        exact decide_eq_false hno
      rw [show (t % 7).toNat = 0 by omega, heven]
      refine iff_of_false Bool.false_ne_true fun h => ?_
      exact (h.resolve_left hnil).2 ⟨by omega, hsun⟩
    · rw [hbit (by omega), show (((t % 7).toNat : Nat) : Int) = weekday n by omega]
      simp only [hnil, false_or]
      exact (and_iff_left fun h => hsun h.2).symm

/-! ### What an offset puts in -/

theorem mem_eastrCodes_day {y n : Nat} {t x : Int} (hn : (easterGetYday y : Int) + t = n)
    (h1 : 1 ≤ n ∧ n ≤ 366) (mon : Nat) (dom : Bitint) (mask : Nat) :
    x ∈ eastrCodes y mon dom mask t ↔ eastrMasked mask t = false ∧ (ydToMd y n).m ≠ 0 ∧
      mdMatchP (ydToMd y n) mon dom = true ∧ x = packCand (ydToMd y n).m (ydToMd y n).d := by
  unfold eastrCodes
  dsimp only
  rw [hn, u32OfInt_ofNat (by omega)]
  split
  · next hno =>
      refine iff_of_false List.not_mem_nil ?_
      rintro ⟨hmask, hm, hmatch, -⟩
      rw [hmask, hmatch] at hno
      simp only [Bool.false_eq_true, Bool.true_eq_false, false_or, or_false] at hno
      omega
  · next hyes =>
      push Not at hyes
      obtain ⟨hmask, -, -, hm, hmatch⟩ := hyes
      rw [List.mem_singleton]
      exact ⟨fun hx => ⟨Bool.eq_false_iff.mpr hmask, hm, Bool.eq_true_of_not_eq_false hmatch, hx⟩,
        fun h => h.2.2.2⟩

theorem eastrCodes_outside {y : Nat} {t : Int} (hE : 81 ≤ easterGetYday y ∧ easterGetYday y ≤ 116)
    (ht : -366 ≤ t ∧ t ≤ 366)
    (hout : (easterGetYday y : Int) + t < 1 ∨ 366 < (easterGetYday y : Int) + t) (mon : Nat)
    (dom : Bitint) (mask : Nat) : eastrCodes y mon dom mask t = [] := by
  unfold eastrCodes
  dsimp only
  refine if_pos ?_
  by_cases h0 : (easterGetYday y : Int) + t < 0
  · have hwrap : 366 < u32OfInt ((easterGetYday y : Int) + t) := by
      unfold u32OfInt wordOfInt
      omega
    exact Or.inr (Or.inr (Or.inl hwrap))
  · obtain ⟨n, hn⟩ : ∃ n : Nat, (easterGetYday y : Int) + t = n := ⟨_, (Int.toNat_of_nonneg (by omega)).symm⟩
    rw [hn, u32OfInt_ofNat (by omega)]
    omega

section Offset

variable {y : Nat} (hy : 1901 ≤ y ∧ y ≤ 2099)
variable {dow : Bitints} (hdow : ∀ t ∈ bi447List dow, 1 ≤ t ∧ t ≤ 7)
variable {months : List Nat} {days : List Int} (hmonths : ∀ m ∈ months, 1 ≤ m ∧ m ≤ 12)
variable (hdays : ∀ d ∈ days, d ≠ 0 ∧ -31 ≤ d ∧ d ≤ 31)
variable {t : Int} (ht : -366 ≤ t ∧ t ≤ 366)
include hy

/-- The date of an offset is a day of the year. -/
theorem EasterDate.yearDay {m d : Nat} (h : EasterDate y [t] dow months days m d) :
    ∃ n : Nat, (easterGetYday y : Int) + t = n ∧ IsYearDay y n m d := by
  have heaster := easterDay_eq hy
  obtain ⟨t', ht, hoff⟩ := h.offset
  obtain rfl := List.mem_singleton.mp ht
  have hday : IsYearDay y (Gregorian.yearDaysBefore (leapDay y) (m - 1) + d) m d :=
    (Gregorian.isYearDay_iff h.valid).mpr rfl
  have hno := hday.2
  exact ⟨_, by omega, hday⟩

include hmonths hdays hdow

/-- An offset that stays in the year puts in its date. -/
theorem mem_eastrCodes_inside {n : Nat} (hn : (easterGetYday y : Int) + t = n)
    (h1 : 1 ≤ n ∧ n ≤ yearLen y) (x : Int) :
    x ∈ eastrCodes y (assMonths months) (assDays days) (wdMaskOf dow) t ↔
      ∃ m d, EasterDate y [t] dow months days m d ∧ ¬ ((0 ≤ t ∧ 7 ∣ t) ∧ bi447List dow ≠ []) ∧
        x = codeOf m d := by
  have hlen := (Gregorian.yearLen_range y).2
  have hday := isYearDay_ydToMd hy h1.1 h1.2
  have hoff : ((dayNo y (ydToMd y n).m (ydToMd y n).d : Nat) : Int) = easterDay y + t := by
    have heaster := easterDay_eq hy
    have hno := hday.2
    omega
  have hmask := eastrMasked_iff hdow (weekday_easter hoff)
  have hmatch := mdMatchP_iff hmonths hdays (ydToMd y n)
  have hmdays := Gregorian.monthDays_range y (ydToMd y n).m
  obtain ⟨m1, m12, d1, d2⟩ := hday.1
  rw [mem_eastrCodes_day hn ⟨h1.1, by omega⟩, hmask, hmatch, packCand_of_small (by unfold codeOf; omega)]
  constructor
  · rintro ⟨hw, -, ⟨hm, hd⟩, rfl⟩
    refine ⟨_, _, ⟨hday.1, ⟨t, List.mem_singleton_self t, hoff⟩, hw.imp_right And.left, hm, hd⟩, ?_, rfl⟩
    rintro ⟨hsun, hne⟩
    exact (hw.resolve_left hne).2 hsun
  · rintro ⟨m, d, hdate, hsun, rfl⟩
    obtain ⟨n', hn', hday'⟩ := hdate.yearDay hy
    obtain rfl : n' = n := by omega
    obtain ⟨rfl, rfl⟩ := hday'.inj hday
    refine ⟨?_, by omega, ⟨hdate.month, hdate.day⟩, rfl⟩
    by_cases hne : bi447List dow = []
    · exact Or.inl hne
    · exact Or.inr ⟨hdate.wday.resolve_left hne, fun h => hsun ⟨h, hne⟩⟩

/-- An offset to the 366th day of a year of 365 puts in one past the end, and others put in nothing. -/
theorem mem_eastrCodes_outside (ht : -366 ≤ t ∧ t ≤ 366)
    (hout : (easterGetYday y : Int) + t < 1 ∨ (yearLen y : Int) < easterGetYday y + t) (x : Int) :
    x ∈ eastrCodes y (assMonths months) (assDays days) (wdMaskOf dow) t ↔
      NewYearTaken y dow months days t ∧ x = 385 := by
  have hE := easterGetYday_bounds hy
  have heaster := easterDay_eq hy
  have hnew : dayNo (y + 1) 1 1 = yearStart y + yearLen y + 1 := by
    rw [← Gregorian.yearStart_succ]
    rfl
  have hlen : yearLen y = 365 + leap4 y := by
    rw [leap4_eq hy]
    rfl
  have hleap : leap4 y = 0 ↔ ¬ Leap y := by
    rw [leap4_eq hy]
    unfold leapDay
    split <;> simp [*]
  by_cases h366 : ¬ Leap y ∧ (easterGetYday y : Int) + t = (366 : Nat)
  · have h0 := hleap.mpr h366.1
    have hover := (ydToMd_over (y := y) (k := 0) (by decide)).2
    rw [h0] at hover
    have hno : (dayNo (y + 1) 1 1 : Int) = easterDay y + t := by omega
    have hmask := eastrMasked_iff hdow (weekday_easter hno)
    have hmatch := mdMatchP_iff hmonths hdays ⟨13, 1⟩
    have h13 : 13 ∉ months := fun h => by
      have := hmonths 13 h
      omega
    rw [mem_eastrCodes_day h366.2 (by decide), show ((366 : Nat) : Int) = 365 + (0 : Nat) + (0 : Nat) + 1 by rfl,
      hover, hmask, hmatch]
    have hpos : 0 ≤ t := by omega
    have hcode : packCand 13 (1 : Nat) = 385 := by decide
    rw [hcode]
    constructor
    · rintro ⟨hw, -, ⟨hm, hd⟩, rfl⟩
      exact ⟨⟨⟨h366.1, hno⟩, hm.resolve_right h13, hd,
        hw.imp_right (And.imp_right fun h hdvd => h ⟨hpos, hdvd⟩)⟩, rfl⟩
    · rintro ⟨⟨-, hm, hd, hw⟩, rfl⟩
      exact ⟨hw.imp_right (And.imp_right fun h hsun => h hsun.2), by decide, ⟨Or.inl hm, hd⟩, rfl⟩
  · have hnone : ¬ NewYearTaken y dow months days t := by
      rintro ⟨⟨hcommon, hno⟩, -⟩
      have h0 := hleap.mpr hcommon
      exact h366 ⟨hcommon, by omega⟩
    have hfar : (easterGetYday y : Int) + t < 1 ∨ 366 < (easterGetYday y : Int) + t := by
      rcases hout with hlt | hgt
      · exact Or.inl hlt
      · have hle := leap4_le y
        by_cases hcommon : Leap y
        · have h1 : leap4 y ≠ 0 := fun h => hleap.mp h hcommon
          omega
        · have hne := mt (And.intro hcommon) h366
          omega
    rw [eastrCodes_outside hE ht hfar]
    exact iff_of_false List.not_mem_nil fun h => hnone h.1
/-- **What an offset puts in.** -/
theorem mem_eastrCodes (ht : -366 ≤ t ∧ t ≤ 366) (x : Int) :
    x ∈ eastrCodes y (assMonths months) (assDays days) (wdMaskOf dow) t ↔
      (∃ m d, EasterDate y [t] dow months days m d ∧ ¬ SundayMissed y dow months days t ∧
        x = codeOf m d) ∨ NewYearTaken y dow months days t ∧ x = 385 := by
  have heaster := easterDay_eq hy
  by_cases hin : 1 ≤ (easterGetYday y : Int) + t ∧ (easterGetYday y : Int) + t ≤ yearLen y
  · obtain ⟨n, hn⟩ : ∃ n : Nat, (easterGetYday y : Int) + t = n :=
      ⟨_, (Int.toNat_of_nonneg (by omega)).symm⟩
    rw [mem_eastrCodes_inside hy hdow hmonths hdays hn (by omega)]
    have hnone : ¬ NewYearTaken y dow months days t := by
      rintro ⟨⟨-, hno⟩, -⟩
      have hnew : dayNo (y + 1) 1 1 = yearStart y + yearLen y + 1 := by
        rw [← Gregorian.yearStart_succ]
        rfl
      omega
    rw [or_iff_left fun h => hnone h.1]
    refine exists₂_congr fun m d => and_congr_right fun hdate => and_congr_left' ?_
    exact not_congr ⟨fun h => ⟨h.1, h.2, m, d, hdate⟩, fun h => ⟨h.1, h.2.1⟩⟩
  · rw [mem_eastrCodes_outside hy hdow hmonths hdays ht (by omega)]
    refine (or_iff_right ?_).symm
    rintro ⟨m, d, hdate, -⟩
    obtain ⟨n, hn, hday⟩ := hdate.yearDay hy
    have hrange := hday.range
    omega

end Offset

/-! ### The whole set -/

/-- Whether `fill_yly_eastr` adds the dates that the offsets stand for. -/
def EasterExact (y : Nat) (offs : List Int) (dow : Bitints) (months : List Nat) (days : List Int) : Prop :=
  Adds (fun c => fillYlyEastr c y (ass383All offs) (assMonths months) (assDays days) (wdMaskOf dow))
    fun x => ∃ m d, EasterDate y offs dow months days m d ∧ x = codeOf m d

theorem easterDate_one {y : Nat} {offs : List Int} {dow : Bitints} {months : List Nat} {days : List Int}
    {m d : Nat} : EasterDate y offs dow months days m d ↔ ∃ t ∈ offs, EasterDate y [t] dow months days m d := by
  constructor
  · rintro ⟨hvalid, ⟨t, ht, hoff⟩, hw, hm, hd⟩
    exact ⟨t, ht, hvalid, ⟨t, List.mem_singleton_self t, hoff⟩, hw, hm, hd⟩
  · rintro ⟨t, ht, hvalid, ⟨t', ht', hoff⟩, hw, hm, hd⟩
    obtain rfl := List.mem_singleton.mp ht'
    exact ⟨hvalid, ⟨t', ht, hoff⟩, hw, hm, hd⟩

/-- **The dates that offsets from Easter stand for are what comes in**, unless one of them is a Sunday
from Easter on and weekdays are given, or New Year's Day after a year of 365 days. -/
theorem fillYlyEastr_iff {y : Nat} (hy : 1901 ≤ y ∧ y ≤ 2099) {offs : List Int}
    (hoffs : ∀ t ∈ offs, -366 ≤ t ∧ t ≤ 366) {dow : Bitints} (hdow : ∀ t ∈ bi447List dow, 1 ≤ t ∧ t ≤ 7)
    {months : List Nat} (hmonths : ∀ m ∈ months, 1 ≤ m ∧ m ≤ 12) {days : List Int}
    (hdays : ∀ d ∈ days, d ≠ 0 ∧ -31 ≤ d ∧ d ≤ 31) :
    EasterExact y offs dow months days ↔
      ∀ t ∈ offs, ¬ SundayMissed y dow months days t ∧ ¬ NewYearTaken y dow months days t := by
  have hset : ∀ t, t ∈ bi383List (ass383All offs) ↔ t ∈ offs :=
    mem_assAll (n := 12) (P := fun t => -366 ≤ t ∧ t ≤ 366) (by decide) (fun t h => by omega) hoffs
      (by decide)
  have hmem : ∀ x, x ∈ (bi383List (ass383All offs)).flatMap
      (eastrCodes y (assMonths months) (assDays days) (wdMaskOf dow)) ↔ ∃ t ∈ offs,
        (∃ m d, EasterDate y [t] dow months days m d ∧ ¬ SundayMissed y dow months days t ∧
          x = codeOf m d) ∨ NewYearTaken y dow months days t ∧ x = 385 := by
    intro x
    rw [List.mem_flatMap]
    refine exists_congr fun t => ?_
    rw [hset]
    exact and_congr_right fun ht => mem_eastrCodes hy hdow hmonths hdays (hoffs t ht) x
  have hcode : ∀ {t : Int} {m d : Nat}, EasterDate y [t] dow months days m d →
      1 ≤ codeOf m d ∧ codeOf m d ≤ 383 := by
    intro t m d h
    have hlen := Gregorian.monthDays_range y m
    obtain ⟨m1, m12, d1, d2⟩ := h.valid
    exact codeOf_range ⟨m1, m12⟩ ⟨by omega, by omega⟩
  unfold EasterExact
  rw [(assigns_fillYlyEastr (by omega) _ _ _ _).adds_iff]
  simp only [hmem]
  constructor
  · rintro ⟨hrange, hall⟩ t ht
    constructor
    · -- the date has to come in by another offset, which there is not
      rintro ⟨hsun, hne, m, d, hdate⟩
      have hx := (hall (codeOf m d)).mp ⟨m, d, easterDate_one.mpr ⟨t, ht, hdate⟩, rfl⟩
      have hle := (hcode hdate).2
      obtain ⟨t', ht', ⟨m', d', hdate', hno, heq⟩ | ⟨-, heq⟩⟩ := hx
      · obtain ⟨n, hn, hday⟩ := hdate.yearDay hy
        obtain ⟨n', hn', hday'⟩ := hdate'.yearDay hy
        have hsame : n = n' := YearDayCode.inj ⟨m, d, hday, rfl⟩ ⟨m', d', hday', heq⟩
        obtain rfl : t = t' := by omega
        exact hno ⟨hsun, hne, m, d, hdate⟩
      · omega
    · intro hnew
      have h385 := (hrange 385 ⟨t, ht, Or.inr ⟨hnew, rfl⟩⟩).2
      omega
  · intro hall
    refine ⟨?_, fun x => ?_⟩
    · rintro x ⟨t, ht, ⟨m, d, hdate, -, rfl⟩ | ⟨hnew, -⟩⟩
      · exact hcode hdate
      · exact absurd hnew (hall t ht).2
    · constructor
      · rintro ⟨m, d, hdate, rfl⟩
        obtain ⟨t, ht, hone⟩ := easterDate_one.mp hdate
        exact ⟨t, ht, Or.inl ⟨m, d, hone, (hall t ht).1, rfl⟩⟩
      · rintro ⟨t, ht, ⟨m, d, hdate, -, rfl⟩ | ⟨hnew, -⟩⟩
        · exact ⟨m, d, easterDate_one.mpr ⟨t, ht, hdate⟩, rfl⟩
        · exact absurd hnew (hall t ht).2

/-- Good Friday, Easter Monday and Whit Sunday of 2024 in spring, without a weekday given. -/
theorem fillYlyEastr_iff_2024 : EasterExact 2024 [-2, 1, 49] (.native []) [3, 4, 5] [] := by
  have hiff : EasterExact 2024 [-2, 1, 49] (.native []) [3, 4, 5] [] ↔ _ :=
    fillYlyEastr_iff (by decide) (by decide) (by decide) (by decide) (by decide)
  refine hiff.mpr fun t _ => ⟨?_, ?_⟩
  · rintro ⟨-, hne, -⟩
    exact hne rfl
  · rintro ⟨-, hmonths, -⟩
    cases hmonths

/-- Easter itself, where a rule asks for Sundays. -/
theorem easter_on_sundays :
    ¬ ∀ (y : Nat) (offs : List Int) (dow : Bitints) (months : List Nat) (days : List Int),
      1901 ≤ y ∧ y ≤ 2099 → (∀ t ∈ offs, -366 ≤ t ∧ t ≤ 366) → (∀ t ∈ bi447List dow, 1 ≤ t ∧ t ≤ 7) →
      (∀ m ∈ months, 1 ≤ m ∧ m ≤ 12) → (∀ d ∈ days, d ≠ 0 ∧ -31 ≤ d ∧ d ≤ 31) →
      EasterExact y offs dow months days := by
  intro h
  have hadds := h 2024 [0] (.native [7]) [] [] (by decide) (by decide) (by decide) (by decide) (by decide)
  have hday : easterDay 2024 = dayNo 2024 3 31 := by
    have heaster : Computus.easter 2024 = (3, 31) := by decide
    unfold easterDay
    rw [heaster]
  have hsunday : ((weekday (dayNo 2024 3 31) : Nat) : Int) ∈ bi447List (.native [7]) := by
    rw [Gregorian.dayNo_closed 2024 (by decide) (by decide)]
    decide
  have hdate : EasterDate 2024 [0] (.native [7]) [] [] 3 31 :=
    ⟨by decide, ⟨0, by decide, by rw [hday, add_zero]⟩, Or.inr hsunday, Or.inl rfl, Or.inl rfl⟩
  have hmem := (hadds.mem .nil codeSet_nil (codeOf 3 (31 : Nat))).mpr (Or.inl ⟨3, 31, hdate, rfl⟩)
  exact absurd hmem (by decide)

end Echse
