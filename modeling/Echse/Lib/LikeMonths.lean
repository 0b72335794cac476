/-
Months that can stand in for others.

A month that is no shorter than another and begins on the same weekday has whatever that one has
when days and weekdays are counted from the first; if it ends on the same weekday, it has what is
counted from the last.  Months are counted through.  Between 1901 and 2099 their lengths come
again after four years, and their weekdays after 28.
-/
import Echse.Lib.YearDates

namespace Gregorian

open Months (before before_succ)
open Picks

/-- Month `j` has the days of month `k`, counted from the first, and they fall on the same weekdays. -/
def BeginsLike (k j : Nat) : Prop :=
  len k ≤ len j ∧ weekday (before len j + 1) = weekday (before len k + 1)

/-- The same for the days counted from the last. -/
def EndsLike (k j : Nat) : Prop :=
  len k ≤ len j ∧ weekday (before len (j + 1)) = weekday (before len (k + 1))

instance (k j : Nat) : Decidable (BeginsLike k j) := inferInstanceAs (Decidable (_ ∧ _))

instance (k j : Nat) : Decidable (EndsLike k j) := inferInstanceAs (Decidable (_ ∧ _))

section Like

variable {k j d w : Nat} {c : Int}

theorem BeginsLike.weekday_eq (h : BeginsLike k j) (d : Nat) :
    weekday (before len j + d) = weekday (before len k + d) := by
  have hfirst := h.2
  unfold weekday at hfirst ⊢
  omega

theorem BeginsLike.pick_day (h : BeginsLike k j) (hc : 0 < c) (hp : pick (List.range' 1 (len k)) c = some d) :
    pick (List.range' 1 (len j)) c = some d := by
  have hlen := h.1
  rw [pick_range', if_neg (by omega : ¬ (c < 0 ∧ -c ≤ len k))] at hp
  split at hp
  · rw [pick_range', if_pos (by omega)]
    exact hp
  · cases hp

theorem EndsLike.pick_day (h : EndsLike k j) (hc : c < 0) (hp : pick (List.range' 1 (len k)) c = some d) :
    ∃ e, pick (List.range' 1 (len j)) c = some e ∧
      weekday (before len j + e) = weekday (before len k + d) := by
  obtain ⟨hlen, hlast⟩ := h
  rw [before_succ, before_succ] at hlast
  rw [pick_range', if_neg (by omega)] at hp
  split at hp
  · rename_i hle
    cases hp
    refine ⟨(len j + 1 + c).toNat, ?_, ?_⟩
    · rw [pick_range', if_neg (by omega), if_pos (by omega)]
    · unfold weekday at hlast ⊢
      omega
  · cases hp

/-- The weekdays of a month counted through. -/
theorem monthWeekdays_eq (k w : Nat) :
    monthWeekdays (k / 12) (k % 12 + 1) w = weekdaysAfter (before len k) (len k) w := by
  have hno : monthNo (k / 12) (k % 12 + 1) = k := by
    unfold monthNo
    omega
  unfold monthWeekdays
  rw [← len_monthNo (by omega) (by omega), hno]

theorem BeginsLike.pick_weekday (h : BeginsLike k j) (hw : 1 ≤ w ∧ w ≤ 7) (hc : 0 < c)
    (hp : pick (weekdaysAfter (before len k) (len k) w) c = some d) :
    pick (weekdaysAfter (before len j) (len j) w) c = some d := by
  obtain ⟨hlen, hfirst⟩ := h
  rw [pick_weekdaysAfter hw c rfl rfl, if_neg (by omega : ¬ (c < 0 ∧ _))] at hp
  split at hp
  · rw [pick_weekdaysAfter hw c rfl rfl, hfirst, if_pos (by omega)]
    exact hp
  · cases hp

theorem EndsLike.pick_weekday (h : EndsLike k j) (hw : 1 ≤ w ∧ w ≤ 7) (hc : c < 0)
    (hp : pick (weekdaysAfter (before len k) (len k) w) c = some d) :
    ∃ e, pick (weekdaysAfter (before len j) (len j) w) c = some e := by
  obtain ⟨hlen, hlast⟩ := h
  rw [before_succ, before_succ] at hlast
  rw [pick_weekdaysAfter hw c rfl rfl, if_neg (by omega)] at hp
  split at hp
  · rename_i hle
    rw [pick_weekdaysAfter hw c rfl rfl, if_neg (by omega), if_pos]
    · exact ⟨_, rfl⟩
    · unfold weekday at hle hlast ⊢
      omega
  · cases hp

end Like

/-! ### Cycles -/

/-- The days before these years go by the rule of four. -/
theorem before_year_range {y : Nat} (hy : 1901 ≤ y ∧ y ≤ 2100) :
    before len (12 * y) + 15 = 365 * y + (y + 3) / 4 := by
  have := before_year y
  omega

theorem leapDay_cycle {y z : Nat} (hy : 1901 ≤ y ∧ y ≤ 2099) (hz : 1901 ≤ z ∧ z ≤ 2099)
    (h : y % 4 = z % 4) : leapDay y = leapDay z := by
  unfold leapDay Leap
  refine if_congr ?_ rfl rfl
  omega

/-- Lengths come again after four years. -/
theorem len_cycle {k j : Nat} (hk : 1901 ≤ k / 12 ∧ k / 12 ≤ 2099) (hj : 1901 ≤ j / 12 ∧ j / 12 ≤ 2099)
    (h : k % 48 = j % 48) : len k = len j := by
  have hleap : Leap (k / 12) ↔ Leap (j / 12) := by
    unfold Leap
    omega
  unfold len
  rw [show k % 12 = j % 12 by omega]
  unfold monthDays
  simp only [hleap]

/-- Weekdays come again after 28 years. -/
theorem weekday_cycle {k j : Nat} (hk : 1901 ≤ k / 12 ∧ k / 12 ≤ 2099)
    (hj : 1901 ≤ j / 12 ∧ j / 12 ≤ 2099) (h : k % 336 = j % 336) (d : Nat) :
    weekday (before len k + d) = weekday (before len j + d) := by
  have hb : ∀ k : Nat, before len k =
      before len (12 * (k / 12)) + yearDaysBefore (leapDay (k / 12)) (k % 12) := by
    intro k
    rw [← before_year_add _ (by omega), Nat.div_add_mod]
  have hy := before_year_range (y := k / 12) (by omega)
  have hz := before_year_range (y := j / 12) (by omega)
  rw [hb k, hb j, leapDay_cycle hk hj (by omega), show k % 12 = j % 12 by omega]
  -- each 28 years have a whole number of weeks
  have hdays : ∀ y : Nat, (365 * y + (y + 3) / 4) % 7 = (365 * (y % 28) + (y % 28 + 3) / 4) % 7 := by
    intro y
    have hq : (y + 3) / 4 = 7 * (y / 28) + (y % 28 + 3) / 4 := by omega
    omega
  have hmod := (hdays (k / 12)).trans ((show k / 12 % 28 = j / 12 % 28 by omega) ▸ (hdays (j / 12)).symm)
  rw [← hy, ← hz] at hmod
  unfold weekday
  omega

theorem like_cycle {k j : Nat} (hk : 1901 ≤ k / 12 ∧ k / 12 ≤ 2099)
    (hj : 1901 ≤ j / 12 ∧ j / 12 ≤ 2099) (h : k % 336 = j % 336) : BeginsLike k j ∧ EndsLike k j := by
  have hlen := len_cycle hk hj (by omega)
  have hwd := weekday_cycle hk hj h
  refine ⟨⟨hlen.le, (hwd 1).symm⟩, hlen.le, ?_⟩
  rw [before_succ, before_succ, hlen]
  exact (hwd _).symm

/-! ### Months on end -/

/-- The days before a month of these years. -/
def daysBefore (k : Nat) : Nat :=
  365 * (k / 12) + (k / 12 + 3) / 4 - 15 + yearDaysBefore (leapDay (k / 12)) (k % 12)

theorem before_eq {k : Nat} (hk : 1901 ≤ k / 12 ∧ k / 12 ≤ 2099) : before len k = daysBefore k := by
  have hyear := before_year_range (y := k / 12) (by omega)
  have hmonth := before_year_add (k / 12) (i := k % 12) (by omega)
  rw [Nat.div_add_mod] at hmonth
  unfold daysBefore
  omega

/-- Among the 62 months before month `k` there are some that begin and end like it. -/
def recalled (k : Nat) : Bool :=
  ((List.range' 1 62).any fun s => len k ≤ len (k - s) &&
    weekday (daysBefore (k - s) + 1) == weekday (daysBefore k + 1)) &&
  (List.range' 1 62).any fun s => len k ≤ len (k - s) &&
    weekday (daysBefore (k - s) + len (k - s)) == weekday (daysBefore k + len k)

theorem recalled_all {j : Nat} (hj : j < 6) : ((List.range' (23184 + 56 * j) 56).all recalled) = true := by
  interval_cases j
  all_goals decide +kernel

/-- **Every month has months that begin and end like it less than 63 months before.** -/
theorem like_before {k : Nat} (hk : 1901 ≤ (k - 62) / 12 ∧ k / 12 ≤ 2099) :
    (∃ s, 1 ≤ s ∧ s ≤ 62 ∧ BeginsLike k (k - s)) ∧ ∃ s, 1 ≤ s ∧ s ≤ 62 ∧ EndsLike k (k - s) := by
  -- the same month of the cycle that begins with 1932
  have hall := List.all_eq_true.mp (recalled_all (j := k % 336 / 56) (by omega)) (23184 + k % 336)
    (List.mem_range'_1.mpr (by omega))
  unfold recalled at hall
  rw [Bool.and_eq_true, List.any_eq_true, List.any_eq_true] at hall
  have hsame : ∀ s ≤ 62, len (k - s) = len (23184 + k % 336 - s) ∧
      ∀ d, weekday (before len (k - s) + d) = weekday (daysBefore (23184 + k % 336 - s) + d) := by
    intro s hs
    refine ⟨len_cycle (by omega) (by omega) (by omega), fun d => ?_⟩
    rw [← before_eq (by omega)]
    exact weekday_cycle (by omega) (by omega) (by omega) d
  obtain ⟨hlen, hwd⟩ := hsame 0 (by omega)
  rw [Nat.sub_zero, Nat.sub_zero] at hlen hwd
  obtain ⟨⟨s, hs, hbegin⟩, t, ht, hend⟩ := hall
  rw [List.mem_range'_1] at hs ht
  rw [Bool.and_eq_true, decide_eq_true_eq, beq_iff_eq] at hbegin hend
  obtain ⟨hlens, hwds⟩ := hsame s (by omega)
  obtain ⟨hlent, hwdt⟩ := hsame t (by omega)
  refine ⟨⟨s, by omega, by omega, ?_, ?_⟩, t, by omega, by omega, ?_, ?_⟩
  · rw [hlen, hlens]
    exact hbegin.1
  · rw [hwd, hwds]
    exact hbegin.2
  · rw [hlen, hlent]
    exact hend.1
  · rw [before_succ, before_succ, hwd, hwdt, hlen, hlent]
    exact hend.2

end Gregorian
