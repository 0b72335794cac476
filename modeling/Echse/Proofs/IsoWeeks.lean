/-
The weeks of a year that a rule lists: `fill_yly_ywd`.

The tables of `evrrul.c` know the weekday of New Year and the years with 53 weeks.  A weekday
of a listed week becomes a day counted from New Year, which the neighbouring year may have.
Such a day is put in as one of the year, at its other end.
-/
import Echse.Proofs.YearSets

namespace Echse

open Gregorian (Leap monthDays dayNo leapDay yearStart yearLen IsYearDay weekday weekOne isoWeeks isoDay)
open Picks (pick)

/-! ### The tables -/

/-- Days before a year of the rule of four. -/
theorem yearStart_eq {y : Nat} (hy : 1901 ≤ y ∧ y ≤ 2099) : yearStart y + 15 = 365 * y + (y + 3) / 4 := by
  have h := Gregorian.before_year y
  unfold yearStart
  omega

theorem getJan01Wday_eq {y : Nat} (hy : 1901 ≤ y ∧ y ≤ 2099) :
    getJan01Wday y = weekday (yearStart y + 1) := by
  have hstart := yearStart_eq hy
  have hlt : y % 28 < 28 := Nat.mod_lt y (by decide)
  unfold getJan01Wday weekday
  generalize hr : y % 28 = r at hlt
  interval_cases r <;> simp only [jan0128yWday, List.getD_cons_zero, List.getD_cons_succ] <;> omega

theorem getIsowk_eq {y : Nat} (hy : 1901 ≤ y ∧ y ≤ 2099) : getIsowk y = isoWeeks y := by
  have hstart := yearStart_eq hy
  have hleap : Leap y ↔ y % 4 = 0 := ⟨fun h => h.1, commonRule_of_range hy⟩
  rw [Gregorian.isoWeeks_eq (by omega)]
  have hlt : y % 28 < 28 := Nat.mod_lt y (by decide)
  unfold getIsowk weekday
  refine if_congr ?_ rfl rfl
  rw [hleap]
  generalize hr : y % 28 = r at hlt
  interval_cases r <;> simp only [reduceCtorEq, Nat.reduceEqDiff, or_self, or_false, or_true,
    true_iff, false_iff] <;> omega

/-- What a listed week stands for: its number, which need not be one of the year's. -/
def weekNo (y : Nat) (w : Int) : Int := if w < 0 then w + 1 + isoWeeks y else w

/-- The day from New Year that weekday `t` of a listed week is, a day of the year or not. -/
def weekYday (y : Nat) (w : Int) (t : Nat) : Int :=
  (weekOne y : Int) + 7 * (weekNo y w - 1) + t - 1 - yearStart y

theorem ywdGetYday_eq {y : Nat} (hy : 1901 ≤ y ∧ y ≤ 2099) (w : Int) (t : Nat) :
    ywdGetYday y w t = weekYday y w t := by
  have hone := Gregorian.weekOne_eq (y := y) (by omega)
  have hrange : 1 ≤ weekday (yearStart y + 1) ∧ weekday (yearStart y + 1) ≤ 7 := by
    unfold weekday
    omega
  unfold ywdGetYday ywdGetJan01Hang weekYday weekNo
  dsimp only
  rw [getJan01Wday_eq hy, getIsowk_eq hy]
  generalize weekday (yearStart y + 1) = j at hone hrange ⊢
  split at hone <;> split <;> omega

/-! ### A listed weekday of a listed week -/

/-- The `n`-th day of the year is a listed weekday of a listed week, the weeks being counted from
the first one or from the last one. -/
def WeekDayListed (y : Nat) (ws : List Int) (ts : List Nat) (n : Nat) : Prop :=
  (1 ≤ n ∧ n ≤ yearLen y) ∧ ∃ w ∈ ws, ∃ t ∈ ts, ∃ k,
    pick (List.range' 1 (isoWeeks y)) w = some k ∧ isoDay y k t = yearStart y + n

/-- An entry is a day of the year, in one of its weeks. -/
def WeekDayIn (y : Nat) (w : Int) (t : Nat) : Prop :=
  (1 ≤ weekNo y w ∧ weekNo y w ≤ isoWeeks y) ∧ 1 ≤ weekYday y w t ∧ weekYday y w t ≤ yearLen y

/-- Where an entry is put: days of a neighbouring year come to the year's other end. -/
def wrapYday (y : Nat) (d : Int) : Int :=
  if d = 0 then yearLen y else if d < 0 then yearLen y + 1 + d
  else if yearLen y < d then d - yearLen y else d

theorem weekYday_range {y : Nat} {w : Int} (hw : -53 ≤ w ∧ w ≤ 53) {t : Nat} (ht : 1 ≤ t ∧ t ≤ 7)
    (hy : 1901 ≤ y ∧ y ≤ 2099) : -10 ≤ weekYday y w t ∧ weekYday y w t ≤ 374 :=
  ywdGetYday_eq hy w t ▸ ywdGetYday_range y hw ht.2

theorem wrapYday_range {y : Nat} {d : Int} (h : -10 ≤ d ∧ d ≤ 374) :
    1 ≤ wrapYday y d ∧ wrapYday y d ≤ yearLen y := by
  have hlen := Gregorian.yearLen_range y
  unfold wrapYday
  split
  · omega
  · split
    · omega
    · split <;> omega

/-- The date of an entry is the one of the day that it is put at. -/
theorem ywdToMd_eq {y : Nat} (hy : 1901 ≤ y ∧ y ≤ 2099) {w : Int} (hw : -53 ≤ w ∧ w ≤ 53) {t : Nat}
    (ht : 1 ≤ t ∧ t ≤ 7) :
    IsYearDay y (wrapYday y (weekYday y w t)).toNat (ywdToMd y w t).m (ywdToMd y w t).d := by
  have hrange := weekYday_range hw ht hy
  have hlen := Gregorian.yearLen_range y
  have hleap : yearLen y = 365 + leap4 y := by
    rw [leap4_eq hy]
    rfl
  unfold ywdToMd wrapYday
  dsimp only
  rw [ywdGetYday_eq hy]
  generalize weekYday y w t = d at hrange ⊢
  have hin : ∀ k : Nat, 1 ≤ k → k ≤ yearLen y → (ydToMd y k).m ≠ 0 ∧ (ydToMd y k).m ≠ 13 ∧
      IsYearDay y k (ydToMd y k).m (ydToMd y k).d := by
    intro k h1 hk
    have hday := isYearDay_ydToMd hy h1 hk
    have hm := hday.1.1
    have hm' := hday.1.2.1
    exact ⟨by omega, by omega, hday⟩
  by_cases h0 : d = 0
  · have hover := (ydToMd_over (y := y) (k := 0) (by decide)).1
    subst h0
    rw [hover, if_pos rfl, if_pos rfl]
    change IsYearDay y _ 12 31
    have h31 : monthDays y 12 = 31 := rfl
    refine (Gregorian.isYearDay_iff ⟨by decide, le_rfl, by decide, h31.ge⟩).mpr ?_
    have hmonths : Gregorian.yearDaysBefore (leapDay y) (12 - 1) = 334 + leapDay y := rfl
    have hyear : yearLen y = 365 + leapDay y := rfl
    rw [hmonths]
    omega
  · rw [if_neg h0]
    by_cases hneg : d < 0
    · obtain ⟨hm0, hm13, hday⟩ := hin (yearLen y + 1 + d).toNat (by omega) (by omega)
      rw [if_pos hneg, ydToMd_neg hneg (by omega),
        show d + 366 + (leap4 y : Int) = ((yearLen y + 1 + d).toNat : Int) by omega,
        if_neg hm0, if_neg hm13]
      exact hday
    · rw [if_neg hneg]
      by_cases hpast : yearLen y < d
      · have hover := (ydToMd_over (y := y) (k := (d - yearLen y - 1).toNat) (by omega)).2
        rw [show (365 : Int) + leap4 y + ((d - yearLen y - 1).toNat : Nat) + 1 = d by omega] at hover
        rw [if_pos hpast, hover, if_neg (Nat.succ_ne_zero 12), if_pos rfl]
        change IsYearDay y _ 1 ((d - yearLen y - 1).toNat + 1)
        have h31 : monthDays y 1 = 31 := rfl
        refine (Gregorian.isYearDay_iff ⟨le_rfl, by decide, by omega, by omega⟩).mpr ?_
        have hnone : Gregorian.yearDaysBefore (leapDay y) (1 - 1) = 0 := rfl
        omega
      · obtain ⟨hm0, hm13, hday⟩ := hin d.toNat (by omega) (by omega)
        rw [if_neg hpast, show ydToMd y d = ydToMd y (d.toNat : Int) by rw [Int.toNat_of_nonneg (by omega)],
          if_neg hm0, if_neg hm13]
        exact hday

/-- The numbers that `snarf_rrule` lets into a set of weeks. -/
def Signed53 (w : Int) : Prop := w ≠ 0 ∧ -53 ≤ w ∧ w ≤ 53

instance (w : Int) : Decidable (Signed53 w) := inferInstanceAs (Decidable (_ ∧ _))

/-- The set of some weeks. -/
def ass63All (ws : List Int) : Bitint := ws.foldl assBi63 ⟨0, 0⟩

/-- The set of some weekdays. -/
def plainAll (ts : List Nat) : Bitints := (ts.map fun t => packCd ⟨0, t⟩).foldl assBi447 .nil

/-- Going through a list of weeks comes to its entries. -/
def WeeksYield (ws : List Int) : Prop := ws.length ≤ 1 ∨ ∃ w ∈ ws, 0 < w

theorem mem_ass63All {ws : List Int} (hws : ∀ w ∈ ws, Signed53 w) (w : Int) :
    w ∈ bi63List (ass63All ws) ↔ w ∈ ws ∧ WeeksYield ws :=
  mem_assAllBi (P := Signed53) (by decide) (fun x hx => by unfold Signed53 at hx; omega) hws
    (by decide) w

theorem mem_plainAll {ts : List Nat} (hts : ∀ t ∈ ts, 1 ≤ t ∧ t ≤ 7) (x : Int) :
    x ∈ bi447List (plainAll ts) ↔ ∃ t ∈ ts, x = (t : Int) := by
  have hpack : ∀ t : Nat, packCd ⟨0, t⟩ = (t : Int) := fun t => by simp [packCd]
  have hxs : ∀ x ∈ ts.map fun t => packCd ⟨0, t⟩, 1 ≤ x ∧ x ≤ 7 := by
    intro x hx
    obtain ⟨t, ht, rfl⟩ := List.mem_map.mp hx
    have := hts t ht
    rw [hpack]
    omega
  have hmem := mem_assAll (n := 14) (P := fun x => 1 ≤ x ∧ x ≤ 7) (by decide)
    (fun x hx => by omega) hxs (show 64 * 14 ≤ 897 by decide) x
  refine hmem.trans (List.mem_map.trans ?_)
  simp only [hpack, eq_comm]

/-- A listed day is an entry that is a day of the year, in one of its weeks. -/
theorem weekDayListed_iff {y : Nat} {ws : List Int} (hws : ∀ w ∈ ws, Signed53 w) {ts : List Nat}
    (hts : ∀ t ∈ ts, 1 ≤ t ∧ t ≤ 7) (n : Nat) :
    WeekDayListed y ws ts n ↔ ∃ w ∈ ws, ∃ t ∈ ts, WeekDayIn y w t ∧ (n : Int) = weekYday y w t := by
  have hpick : ∀ w ∈ ws, ∀ k, pick (List.range' 1 (isoWeeks y)) w = some k ↔
      1 ≤ k ∧ k ≤ isoWeeks y ∧ (k : Int) = weekNo y w := by
    intro w hw k
    have hsigned := hws w hw
    unfold Signed53 at hsigned
    rw [Picks.pick_range']
    unfold weekNo
    split
    · rw [Option.some.injEq]
      split <;> omega
    · split
      · rw [Option.some.injEq]
        split <;> omega
      · split <;> simp <;> omega
  unfold WeekDayListed
  constructor
  · rintro ⟨hn, w, hw, t, ht, k, hk, hday⟩
    obtain ⟨h1, hle, hno⟩ := (hpick w hw k).mp hk
    have ht' := hts t ht
    have hyday : (n : Int) = weekYday y w t := by
      unfold weekYday
      unfold isoDay at hday
      omega
    exact ⟨w, hw, t, ht, ⟨by omega, by omega⟩, hyday⟩
  · rintro ⟨w, hw, t, ht, ⟨hno, hin⟩, hn⟩
    have ht' := hts t ht
    refine ⟨by omega, w, hw, t, ht, (weekNo y w).toNat, (hpick w hw _).mpr (by omega), ?_⟩
    unfold isoDay
    unfold weekYday at hn
    omega

theorem wrapYday_of_in {y : Nat} {w : Int} {t : Nat} (h : WeekDayIn y w t) :
    wrapYday y (weekYday y w t) = weekYday y w t := by
  obtain ⟨-, h1, hle⟩ := h
  unfold wrapYday
  rw [if_neg (by omega), if_neg (by omega), if_neg (by omega)]

/-- What the code makes of a list of weeks is what it means: the list comes to its entries, and
the ones that are no days of the year, or in no week of it, are put at listed days; or it
does not, and no entry is one. -/
def WeeksSound (y : Nat) (ws : List Int) (ts : List Nat) : Prop :=
  (WeeksYield ws ∧ ∀ w ∈ ws, ∀ t ∈ ts, ¬ WeekDayIn y w t →
      WeekDayListed y ws ts (wrapYday y (weekYday y w t)).toNat) ∨
    (¬ WeeksYield ws ∧ ∀ w ∈ ws, ∀ t ∈ ts, ¬ WeekDayIn y w t)

theorem adds_weeks {y : Nat} (hy : 1901 ≤ y ∧ y ≤ 2099) {ws : List Int} (hws : ∀ w ∈ ws, Signed53 w)
    {ts : List Nat} (hts : ∀ t ∈ ts, 1 ≤ t ∧ t ≤ 7) :
    Adds (fun c => fillYlyYwd c y (ass63All ws) (plainAll ts)) fun x =>
      ∃ n, (WeeksYield ws ∧ ∃ w ∈ ws, ∃ t ∈ ts, n = (wrapYday y (weekYday y w t)).toNat) ∧
        YearDayCode y n x := by
  refine (adds_fillYlyYwd (fun w hw => ?_) (plainAll ts)).congr fun x => ?_
  · exact hws w ((mem_ass63All hws w).mp hw).1
  -- the code of an entry
  have hcode : ∀ w ∈ ws, ∀ t ∈ ts, YearDayCode y (wrapYday y (weekYday y w t)).toNat
      (codeOf (ywdToMd y w t).m (ywdToMd y w t).d) := fun w hw t ht =>
    ⟨_, _, ywdToMd_eq hy (hws w hw).2 (hts t ht), rfl⟩
  constructor
  · rintro ⟨w, hw, s, hs, -, rfl⟩
    obtain ⟨hw, hyield⟩ := (mem_ass63All hws w).mp hw
    obtain ⟨t, ht, rfl⟩ := (mem_plainAll hts s).mp hs
    exact ⟨_, ⟨hyield, w, hw, t, ht, rfl⟩, hcode w hw t ht⟩
  · rintro ⟨n, ⟨hyield, w, hw, t, ht, rfl⟩, hx⟩
    have ht' := hts t ht
    refine ⟨w, (mem_ass63All hws w).mpr ⟨hw, hyield⟩, t, (mem_plainAll hts t).mpr ⟨t, ht, rfl⟩, ?_, ?_⟩
    · unfold wdayMir wdaySun
      omega
    · obtain ⟨m, d, hday, rfl⟩ := hx
      obtain ⟨rfl, rfl⟩ := hday.inj (ywdToMd_eq hy (hws w hw).2 ht')
      rfl

/-- **The listed weekdays of the listed weeks are put in**, and nothing else, exactly if no entry
goes wrong. -/
theorem fillYlyYwd_exact {y : Nat} (hy : 1901 ≤ y ∧ y ≤ 2099) {ws : List Int}
    (hws : ∀ w ∈ ws, Signed53 w) {ts : List Nat} (hts : ∀ t ∈ ts, 1 ≤ t ∧ t ≤ 7) :
    Adds (fun c => fillYlyYwd c y (ass63All ws) (plainAll ts))
        (fun x => ∃ n, WeekDayListed y ws ts n ∧ YearDayCode y n x) ↔
      WeeksSound y ws ts := by
  have hwrap : ∀ w ∈ ws, ∀ t ∈ ts, 1 ≤ (wrapYday y (weekYday y w t)).toNat ∧
      (wrapYday y (weekYday y w t)).toNat ≤ yearLen y := by
    intro w hw t ht
    have := wrapYday_range (y := y) (weekYday_range (hws w hw).2 (hts t ht) hy)
    omega
  rw [(adds_weeks hy hws hts).unique, yearDayCodes_iff hy
    (fun n ⟨_, w, hw, t, ht, hn⟩ => hn ▸ hwrap w hw t ht) fun n hn => hn.1]
  have hin : ∀ w ∈ ws, ∀ t ∈ ts, WeekDayIn y w t →
      WeekDayListed y ws ts (wrapYday y (weekYday y w t)).toNat := by
    intro w hw t ht h
    refine (weekDayListed_iff hws hts _).mpr ⟨w, hw, t, ht, h, ?_⟩
    have hrange := hwrap w hw t ht
    have hsame := wrapYday_of_in h
    omega
  unfold WeeksSound
  by_cases hyield : WeeksYield ws
  · simp only [hyield, true_and, not_true_eq_false, false_and, or_false]
    constructor
    · intro hsame w hw t ht _
      exact (hsame _).mp ⟨w, hw, t, ht, rfl⟩
    · intro hsound n
      constructor
      · rintro ⟨w, hw, t, ht, rfl⟩
        by_cases h : WeekDayIn y w t
        · exact hin w hw t ht h
        · exact hsound w hw t ht h
      · intro hn
        obtain ⟨w, hw, t, ht, h, hno⟩ := (weekDayListed_iff hws hts n).mp hn
        refine ⟨w, hw, t, ht, ?_⟩
        rw [wrapYday_of_in h]
        omega
  · simp only [hyield, false_and, not_false_eq_true, true_and, false_or]
    constructor
    · intro hsame w hw t ht h
      exact (hsame _).mpr (hin w hw t ht h)
    · intro hnone n
      refine ⟨False.elim, fun hn => ?_⟩
      obtain ⟨w, hw, t, ht, h, -⟩ := (weekDayListed_iff hws hts n).mp hn
      exact hnone w hw t ht h

/-- The Mondays of the first weeks of 2024, which begins with one. -/
theorem fillYlyYwd_exact_2024 :
    Adds (fun c => fillYlyYwd c 2024 (ass63All [1, 2]) (plainAll [1]))
        (fun x => ∃ n, WeekDayListed 2024 [1, 2] [1] n ∧ YearDayCode 2024 n x) ↔
      WeeksSound 2024 [1, 2] [1] :=
  fillYlyYwd_exact ⟨by decide, by decide⟩ (by decide) (by decide)

/-- The Monday of the first week of 2025 is in 2024, and it is put at the end of 2025. -/
theorem ywd_wraps_first_monday :
    ¬ ∀ (y : Nat) (ws : List Int) (ts : List Nat), 1901 ≤ y ∧ y ≤ 2099 → (∀ w ∈ ws, Signed53 w) →
      (∀ t ∈ ts, 1 ≤ t ∧ t ≤ 7) →
      Adds (fun c => fillYlyYwd c y (ass63All ws) (plainAll ts))
        (fun x => ∃ n, WeekDayListed y ws ts n ∧ YearDayCode y n x) := by
  intro h
  have hadds := h 2025 [1] [1] (by decide) (by decide) (by decide)
  have hfill : fillYlyYwd .nil 2025 (ass63All [1]) (plainAll [1]) = .native [383] := by decide
  have hmem := (hadds.mem .nil codeSet_nil 383).mp
  rw [hfill] at hmem
  have hone : weekYday 2025 1 1 = -1 := by
    rw [← ywdGetYday_eq (by decide)]
    decide
  rcases hmem (List.mem_singleton_self _) with ⟨n, hn, -⟩ | hnil
  · obtain ⟨w, hw, t, ht, ⟨-, h1, -⟩, -⟩ :=
      (weekDayListed_iff (by decide) (by decide) n).mp hn
    rw [List.mem_singleton] at hw ht
    subst hw ht
    omega
  · cases hnil

end Echse
