/-
The days and weeks of a year that a rule lists: `fill_yly_yd` and `fill_yly_ywd`.

What each puts in is a code for every entry of its list.  The two go wrong where an entry is
not a day of the year: there the conversion to a month and a day still finds something.
-/
import Echse.Proofs.Counted
import Echse.Proofs.Members

namespace Echse

open Gregorian (Leap monthDays dayNo leapDay yearStart yearLen IsYearDay weekday)
open Picks (pick)

/-! ### What is put in -/

/-- A set that something other than a code has been assigned to. -/
def Strayed : Bitints → Prop
  | .native xs => ∃ x ∈ xs, 383 < x
  | .bits b => ∃ i, 383 < i ∧ b.testBit i = true

theorem Strayed.not_codeSet {c : Bitints} (h : Strayed c) : ¬ CodeSet c := by
  intro hc
  cases c with
  | native xs =>
      obtain ⟨x, hx, hlt⟩ := h
      have := (hc.2.2 x hx).2
      omega
  | bits b =>
      obtain ⟨i, hlt, hi⟩ := h
      have := hc i hi
      omega

theorem testBit_foldl_assBs_of {xs : List Int} {i : Nat} : ∀ {b : Nat},
    (b.testBit i = true ∨ ∃ x ∈ xs, 0 < x ∧ i = x.toNat) → (xs.foldl (assBs 12) b).testBit i = true := by
  induction xs with
  | nil =>
      rintro b (h | ⟨x, hx, -⟩)
      · exact h
      · cases hx
  | cons x xs ih =>
      rintro b (h | ⟨y, hy, hpos, rfl⟩)
      · exact ih (Or.inl ((testBit_assBs_iff 12).mpr (Or.inl h)))
      · rcases List.mem_cons.mp hy with rfl | hy
        · exact ih (Or.inl ((testBit_assBs_iff 12).mpr (Or.inr (if_pos hpos).symm)))
        · exact ih (Or.inr ⟨y, hy, hpos, rfl⟩)

theorem strayed_ass {c : Bitints} {x : Int} (h : Strayed c ∨ 383 < x) : Strayed (assBi383 c x) := by
  cases c with
  | native xs =>
      have hsome : ∃ y, (y = x ∨ y ∈ xs) ∧ 383 < y := by
        rcases h with ⟨y, hy, hlt⟩ | hlt
        · exact ⟨y, Or.inr hy, hlt⟩
        · exact ⟨x, Or.inl rfl, hlt⟩
      obtain ⟨y, hy, hlt⟩ := hsome
      unfold assBi383 assBints
      dsimp only
      split
      · exact ⟨y, (mem_assInt x xs y).mpr hy, hlt⟩
      · refine ⟨y.toNat, by omega, (testBit_assBs_iff 12).mpr ?_⟩
        rcases hy with rfl | hy
        · exact Or.inr (if_pos (by omega)).symm
        · exact Or.inl (testBit_foldl_assBs_of (Or.inr ⟨y, hy, by omega, rfl⟩))
  | bits b =>
      rcases h with ⟨i, hlt, hi⟩ | hlt
      · exact ⟨i, hlt, (testBit_assBs_iff 12).mpr (Or.inl hi)⟩
      · exact ⟨x.toNat, by omega, (testBit_assBs_iff 12).mpr (Or.inr (if_pos (by omega)).symm)⟩

/-! ### Days of the year -/

/-- The weekday that `yd_get_wday` finds for a day of the year is right. -/
theorem ydGetWday_eq {y n : Nat} (hy : 1901 ≤ y ∧ y ≤ 2099) (h1 : 1 ≤ n) (hn : n ≤ 366) :
    ydGetWday y n = weekday (yearStart y + n) := by
  have hwd : ymdGetWday y 1 1 = weekday (yearStart y + 1) :=
    wdayGreg_eq (by omega) (by omega) le_rfl (by decide) (by decide)
  have hu : u32OfInt ((ymdGetWday y 1 1 : Int) + n - 1) = ymdGetWday y 1 1 + n - 1 := by
    have hr := ymdGetWday_range y 1 1
    rw [show (ymdGetWday y 1 1 : Int) + n - 1 = ((ymdGetWday y 1 1 + n - 1 : Nat) : Int) by omega]
    exact u32OfInt_ofNat (by omega)
  unfold ydGetWday wdaySun
  dsimp only
  rw [hu, hwd]
  unfold weekday
  split <;> omega

/-- A rule that lists days of the year, and weekdays or none, lists this day. -/
def YearDayMeant (y : Nat) (ds : List Int) (mask n : Nat) : Prop :=
  (∃ t ∈ ds, pick (List.range' 1 (yearLen y)) t = some n) ∧
    (maskPlain mask = true → maskHas mask (weekday (yearStart y + n)) = true)

/-- What `fill_yly_yd` makes of an entry: the day, if the weekday it takes for its one is listed. -/
def YearDayTaken (y : Nat) (ds : List Int) (mask n : Nat) : Prop :=
  ∃ t ∈ ds, pick (List.range' 1 (yearLen y)) t = some n ∧
    (maskPlain mask = true → maskHas mask (ydGetWday y t) = true)

/-- An entry puts in the day it stands for, unless it is a 366th day that is not there. -/
theorem adds_yearDay_entry {y : Nat} (hy : 1901 ≤ y ∧ y ≤ 2099) {t : Int} (ht : Signed366 t) (mask : Nat)
    (hin : t ≤ yearLen y ∨ (maskPlain mask && !maskHas mask (ydGetWday y t)) = true) :
    Adds (fun c => if maskPlain mask && !maskHas mask (ydGetWday y t) then c
        else if (ydToMd y t).m = 0 then c
        else assBi383 c (packCand (ydToMd y t).m (ydToMd y t).d)) fun x =>
      ∃ n, (pick (List.range' 1 (yearLen y)) t = some n ∧
        (maskPlain mask = true → maskHas mask (ydGetWday y t) = true)) ∧ YearDayCode y n x := by
  have hlen := Gregorian.yearLen_range y
  have hskip : (maskPlain mask = true → maskHas mask (ydGetWday y t) = true) ↔
      ¬ (maskPlain mask && !maskHas mask (ydGetWday y t)) = true := by
    simp
  unfold Signed366 at ht
  rw [Picks.pick_range']
  by_cases hmask : (maskPlain mask && !maskHas mask (ydGetWday y t)) = true
  · simp only [hmask, if_true]
    exact adds_nothing fun x ⟨n, ⟨_, h⟩, _⟩ => hskip.mp h hmask
  simp only [hmask]
  have ht' := hin.resolve_right hmask
  by_cases hpos : 0 < t
  · obtain ⟨n, rfl⟩ : ∃ n : Nat, t = n := ⟨t.toNat, by omega⟩
    refine (adds_yearDay (n := n) hy (by omega) (by omega)).congr fun x => ?_
    rw [if_pos ⟨hpos, ht'⟩]
    exact ⟨fun h => ⟨n, ⟨by simp, hskip.mpr hmask⟩, h⟩, fun ⟨k, ⟨hk, _⟩, h⟩ => by
      cases hk
      exact h⟩
  · rw [if_neg (by omega)]
    have hleap : yearLen y = 365 + leap4 y := by
      rw [leap4_eq hy]
      rfl
    rw [ydToMd_neg (by omega) (by omega)]
    by_cases hin : -t ≤ yearLen y
    · rw [if_pos ⟨by omega, hin⟩,
        show t + 366 + (leap4 y : Int) = ((yearLen y + 1 + t).toNat : Int) by omega]
      refine (adds_yearDay (n := (yearLen y + 1 + t).toNat) hy (by omega) (by omega)).congr fun x => ?_
      exact ⟨fun h => ⟨_, ⟨rfl, hskip.mpr hmask⟩, h⟩, fun ⟨k, ⟨hk, _⟩, h⟩ => by
        cases hk
        exact h⟩
    · -- the first of 366 days in a year of 365
      have hover := (ydToMd_over (y := y) (k := 0) (by decide)).1
      rw [if_neg (by omega), show t + 366 + (leap4 y : Int) = 0 by omega, hover]
      simp only [if_true]
      exact adds_nothing fun x ⟨n, ⟨hn, _⟩, _⟩ => by cases hn

theorem pick_day_range {n k : Nat} {t : Int} (h : pick (List.range' 1 n) t = some k) :
    1 ≤ k ∧ k ≤ n := by
  have := List.mem_range'_1.mp (Picks.pick_mem h)
  omega

/-- The entries that `fill_yly_yd` goes wrong at are not in the list: a 366th day without a
leap day, and days counted from the end that have a weekday other than the one taken for
theirs, as far as it matters for the mask. -/
structure YearDaysSound (y : Nat) (ds : List Int) (mask : Nat) : Prop where
  last : 366 ∈ ds → yearLen y = 366 ∨ (maskPlain mask && !maskHas mask (ydGetWday y 366)) = true
  back : maskPlain mask = true → ∀ t ∈ ds, t < 0 → -t ≤ yearLen y →
    (maskHas mask (ydGetWday y t) = true → maskHas mask (ydGetWday y (yearLen y + 1 + t)) = true) ∧
      (maskHas mask (ydGetWday y (yearLen y + 1 + t)) = true →
        maskHas mask (ydGetWday y t) = true ∨ (yearLen y + 1 + t) ∈ ds)

/-- The days taken are the ones listed exactly if this holds of the days counted from the end. -/
theorem yearDayTaken_iff {y : Nat} (hy : 1901 ≤ y ∧ y ≤ 2099) (ds : List Int) (mask : Nat) :
    (∀ n, YearDayTaken y ds mask n ↔ YearDayMeant y ds mask n) ↔
      (maskPlain mask = true → ∀ t ∈ ds, t < 0 → -t ≤ yearLen y →
        (maskHas mask (ydGetWday y t) = true →
            maskHas mask (ydGetWday y (yearLen y + 1 + t)) = true) ∧
          (maskHas mask (ydGetWday y (yearLen y + 1 + t)) = true →
            maskHas mask (ydGetWday y t) = true ∨ (yearLen y + 1 + t) ∈ ds)) := by
  have hlen := Gregorian.yearLen_range y
  have hback : ∀ t : Int, t < 0 → -t ≤ yearLen y →
      pick (List.range' 1 (yearLen y)) t = some (yearLen y + 1 + t).toNat := by
    intro t hneg hle
    rw [Picks.pick_range', if_neg (by omega), if_pos ⟨hneg, hle⟩]
  have hwday : ∀ k : Int, 1 ≤ k → k ≤ yearLen y →
      weekday (yearStart y + k.toNat) = ydGetWday y k := by
    intro k h1 hk
    rw [← ydGetWday_eq hy (by omega) (by omega), Int.toNat_of_nonneg (by omega)]
  constructor
  · intro hsame hplain t ht hneg hle
    have hday := hback t hneg hle
    constructor
    · intro htake
      have := ((hsame _).mp ⟨t, ht, hday, fun _ => htake⟩).2 hplain
      rwa [hwday _ (by omega) (by omega)] at this
    · intro hlist
      rw [← hwday _ (by omega) (by omega)] at hlist
      obtain ⟨s, hs, hsday, hstake⟩ := (hsame _).mpr ⟨⟨t, ht, hday⟩, fun _ => hlist⟩
      rw [Picks.pick_range'] at hsday
      split at hsday
      · rename_i hpos
        rw [Option.some.injEq] at hsday
        exact Or.inr (by rwa [show (yearLen y : Int) + 1 + t = s by omega])
      · split at hsday
        · rw [Option.some.injEq] at hsday
          rw [show t = s by omega]
          exact Or.inl (hstake hplain)
        · cases hsday
  · intro hsound n
    constructor
    · rintro ⟨t, ht, hday, htake⟩
      refine ⟨⟨t, ht, hday⟩, fun hplain => ?_⟩
      have hrange := pick_day_range hday
      rw [Picks.pick_range'] at hday
      split at hday
      · rename_i hpos
        rw [Option.some.injEq] at hday
        rw [← hday, hwday t (by omega) (by omega)]
        exact htake hplain
      · split at hday
        · rename_i hneg
          rw [Option.some.injEq] at hday
          rw [← hday, hwday _ (by omega) (by omega)]
          exact (hsound hplain t ht hneg.1 hneg.2).1 (htake hplain)
        · cases hday
    · rintro ⟨⟨t, ht, hday⟩, hlist⟩
      by_cases hplain : maskPlain mask = true
      · have hrange := pick_day_range hday
        have hlist' := hlist hplain
        rw [Picks.pick_range'] at hday
        split at hday
        · rename_i hpos
          rw [Option.some.injEq] at hday
          rw [← hday, hwday t (by omega) (by omega)] at hlist'
          exact ⟨t, ht, by rw [Picks.pick_range', if_pos hpos, hday], fun _ => hlist'⟩
        · split at hday
          · rename_i hneg
            rw [Option.some.injEq] at hday
            rw [← hday, hwday _ (by omega) (by omega)] at hlist'
            rcases (hsound hplain t ht hneg.1 hneg.2).2 hlist' with htake | hmem
            · exact ⟨t, ht, by rw [hback t hneg.1 hneg.2, hday], fun _ => htake⟩
            · refine ⟨_, hmem, ?_, fun _ => hlist'⟩
              rw [Picks.pick_range', if_pos ⟨by omega, by omega⟩, hday]
          · cases hday
      · exact ⟨t, ht, hday, fun h => absurd h hplain⟩

/-- A 366th day that is not there comes to a month 13. -/
theorem fillYlyYd_strayed {y : Nat} (hy : 1901 ≤ y ∧ y ≤ 2099) (h365 : yearLen y ≠ 366) {mask : Nat}
    (hmask : ¬ (maskPlain mask && !maskHas mask (ydGetWday y 366)) = true) {ts : List Int} :
    ∀ {c : Bitints}, Strayed c ∨ 366 ∈ ts →
      Strayed (ts.foldl (fun c t => if maskPlain mask && !maskHas mask (ydGetWday y t) then c
        else if (ydToMd y t).m = 0 then c
        else assBi383 c (packCand (ydToMd y t).m (ydToMd y t).d)) c) := by
  have hlen := Gregorian.yearLen_range y
  have hleap : yearLen y = 365 + leap4 y := by
    rw [leap4_eq hy]
    rfl
  have hmd : ydToMd y 366 = ⟨13, 1⟩ := by
    have hover := (ydToMd_over (y := y) (k := 0) (by decide)).2
    rwa [show (365 : Int) + leap4 y + (0 : Nat) + 1 = 366 by omega] at hover
  induction ts with
  | nil =>
      rintro c (h | h)
      · exact h
      · cases h
  | cons t ts ih =>
      intro c h
      rw [List.foldl_cons]
      refine ih ?_
      by_cases hmem : 366 ∈ ts
      · exact Or.inr hmem
      · refine Or.inl ?_
        by_cases ht : t = 366
        · subst ht
          have hpack : packCand (⟨13, 1⟩ : Md).m (⟨13, 1⟩ : Md).d = 385 := by decide
          rw [if_neg hmask, hmd, if_neg (by decide), hpack]
          exact strayed_ass (Or.inr (by decide))
        · have hc : Strayed c := h.resolve_right fun h => by
            rcases List.mem_cons.mp h with h | h
            · exact ht h.symm
            · exact hmem h
          split
          · exact hc
          · split
            · exact hc
            · exact strayed_ass (Or.inl hc)

/-- **The listed days of a year are put in**, those on a listed weekday if there are such, exactly
if the list has none of the entries that go wrong. -/
theorem fillYlyYd_exact {y : Nat} (hy : 1901 ≤ y ∧ y ≤ 2099) {ds : List Int}
    (hds : ∀ t ∈ ds, Signed366 t) (mask : Nat) :
    Adds (fun c => fillYlyYd c y (ass383All ds) mask)
        (fun x => ∃ n, YearDayMeant y ds mask n ∧ YearDayCode y n x) ↔
      YearDaysSound y ds mask := by
  have hlen := Gregorian.yearLen_range y
  by_cases hlast : 366 ∈ ds → yearLen y = 366 ∨
      (maskPlain mask && !maskHas mask (ydGetWday y 366)) = true
  · have hadds : Adds (fun c => fillYlyYd c y (ass383All ds) mask)
        fun x => ∃ n, YearDayTaken y ds mask n ∧ YearDayCode y n x := by
      refine (adds_foldl fun t ht => adds_yearDay_entry hy (t := t)
        (hds t ((mem_ass383All hds t).mp ht)) mask ?_).congr fun x => ?_
      · have hmem := (mem_ass383All hds t).mp ht
        have hrange := hds t hmem
        unfold Signed366 at hrange
        by_cases h366 : t = 366
        · rw [h366] at hmem ⊢
          exact (hlast hmem).imp_left fun h => by omega
        · exact Or.inl (by omega)
      · constructor
        · rintro ⟨t, ht, n, ⟨hday, htake⟩, hcode⟩
          exact ⟨n, ⟨t, (mem_ass383All hds t).mp ht, hday, htake⟩, hcode⟩
        · rintro ⟨n, ⟨t, ht, hday, htake⟩, hcode⟩
          exact ⟨t, (mem_ass383All hds t).mpr ht, n, ⟨hday, htake⟩, hcode⟩
    rw [hadds.unique, yearDayCodes_iff hy (fun n ⟨t, _, hday, _⟩ => pick_day_range hday)
      fun n ⟨⟨t, _, hday⟩, _⟩ => pick_day_range hday, yearDayTaken_iff hy]
    exact ⟨fun hback => ⟨hlast, hback⟩, fun hsound => hsound.back⟩
  · refine iff_of_false (fun hadds => ?_) fun hsound => hlast hsound.last
    obtain ⟨hmem, hno⟩ := Classical.not_imp.mp hlast
    obtain ⟨h365, hmask⟩ := not_or.mp hno
    refine (fillYlyYd_strayed hy h365 hmask (c := .nil)
      (Or.inr ((mem_ass383All hds 366).mpr hmem))).not_codeSet ?_
    exact hadds.codes .nil codeSet_nil

/-- The first and the last day of a leap year, whatever their weekday. -/
theorem fillYlyYd_exact_ends :
    Adds (fun c => fillYlyYd c 2024 (ass383All [1, -1]) 0)
        (fun x => ∃ n, YearDayMeant 2024 [1, -1] 0 n ∧ YearDayCode 2024 n x) ↔
      YearDaysSound 2024 [1, -1] 0 :=
  fillYlyYd_exact ⟨by decide, by decide⟩ (by decide) 0

/-- The last day of 2018 is a Monday, and a rule for Mondays leaves it out. -/
theorem yd_misses_last_monday :
    ¬ ∀ (y : Nat) (ds : List Int) (mask : Nat), 1901 ≤ y ∧ y ≤ 2099 → (∀ t ∈ ds, Signed366 t) →
      Adds (fun c => fillYlyYd c y (ass383All ds) mask)
        (fun x => ∃ n, YearDayMeant y ds mask n ∧ YearDayCode y n x) := by
  intro h
  have hadds := h 2018 [-1] 2 (by decide) (by decide)
  have hfill : fillYlyYd .nil 2018 (ass383All [-1]) 2 = .nil := by decide
  have hlen : yearLen 2018 = 365 := by decide
  have hday : YearDayMeant 2018 [-1] 2 365 := by
    refine ⟨⟨-1, List.mem_singleton_self _, ?_⟩, fun _ => ?_⟩
    · rw [Picks.pick_range', hlen]
      decide
    · rw [← ydGetWday_eq (by decide) (by decide) (by decide)]
      decide
  have hcode : YearDayCode 2018 365 383 := by
    refine ⟨12, 31, (Gregorian.isYearDay_iff (by decide)).mpr (by decide), by decide⟩
  have hmem := (hadds.mem .nil codeSet_nil 383).mpr (Or.inl ⟨365, hday, hcode⟩)
  rw [hfill] at hmem
  cases hmem

end Echse
