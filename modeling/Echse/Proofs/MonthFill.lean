/-
The days that a monthly rule takes of a month.

Month days and weekdays are read the way a calendar has them: the `c`-th day or weekday is
picked from those of the month.  Where a rule lists month days, weekdays restrict these, but only
the plain ones are looked at.  Where it lists none, weekdays stand for themselves.
-/
import Echse.Proofs.Counted
import Echse.Proofs.Masks
import Echse.Proofs.Order

namespace Echse

open Gregorian (monthDays dayNo weekday monthWeekdays)
open Picks (pick)

/-- A day is one of the listed days of a month of `n` days. -/
def DomListed (ds : List Int) (n d : Nat) : Prop := ∃ t ∈ ds, pick (List.range' 1 n) t = some d

/-- An entry of BYDAY takes a day of a month: any of its weekday, or the one it counts to. -/
def EntryTakes (y m : Nat) (t : Int) (d : Nat) : Prop :=
  if (unpackCd t).cnt = 0 then d ∈ monthWeekdays y m (unpackCd t).dow
  else pick (monthWeekdays y m (unpackCd t).dow) (unpackCd t).cnt = some d

/-- What the generators take of a month. -/
def MonthDayTaken (rr : Rrulsp) (ds : List Int) (y m d : Nat) : Prop :=
  if ds = [] then ∃ t ∈ bi447List rr.dow, EntryTakes y m t d
  else DomListed ds (monthDays y m) d ∧
    (plainDays rr.dow ≠ [] → (weekday (dayNo y m d) : Int) ∈ plainDays rr.dow)

/-! ### Entries -/

/-- A plain entry is its weekday. -/
theorem IsCd.plain_iff {t : Int} (h : IsCd t) : (unpackCd t).cnt = 0 ↔ 1 ≤ t ∧ t ≤ 7 := by
  unfold IsCd at h
  unfold unpackCd
  dsimp only
  omega

theorem IsCd.dow_eq {t : Int} (h : IsCd t) (h0 : (unpackCd t).cnt = 0) : ((unpackCd t).dow : Int) = t := by
  unfold IsCd at h
  unfold unpackCd at h0 ⊢
  dsimp only at h0 ⊢
  omega

theorem isCd_of_ranged {rr : Rrulsp} (hr : rr.Ranged) : ∀ t ∈ bi447List rr.dow, IsCd t :=
  hr.dow.list (by decide) (by decide)

/-- The lowest bit of the mask tells of counted entries. -/
theorem wdMaskOf_odd {dow : Bitints} :
    wdMaskOf dow % 2 = 1 ↔ ∃ t ∈ bi447List dow, ¬ (1 ≤ t ∧ t ≤ 7) := by
  have hfold : ∀ (xs : List Int) (acc : Nat),
      (xs.foldl (fun mask tmp =>
        mask ||| if (wdayMon : Int) ≤ tmp ∧ tmp ≤ wdaySun then 1 <<< tmp.toNat else 1) acc).testBit 0
          = true ↔ acc.testBit 0 = true ∨ ∃ t ∈ xs, ¬ (1 ≤ t ∧ t ≤ 7) := by
    intro xs
    induction xs with
    | nil => intro acc; simp
    | cons x xs ih =>
        intro acc
        have hbit : (if (wdayMon : Int) ≤ x ∧ x ≤ wdaySun then 1 <<< x.toNat else 1).testBit 0 = true ↔
            ¬ (1 ≤ x ∧ x ≤ 7) := by
          by_cases hx : (wdayMon : Int) ≤ x ∧ x ≤ wdaySun
          · rw [if_pos hx, Nat.one_shiftLeft, Nat.testBit_two_pow, decide_eq_true_eq]
            unfold wdayMon wdaySun at hx
            omega
          · rw [if_neg hx]
            unfold wdayMon wdaySun at hx
            exact iff_of_true (by decide) (by omega)
        rw [List.foldl_cons, ih, Nat.testBit_or, Bool.or_eq_true, hbit]
        simp only [List.mem_cons, exists_eq_or_imp, or_assoc]
  have := hfold (bi447List dow) 0
  rw [Nat.zero_testBit, Nat.testBit_zero, decide_eq_true_eq] at this
  simpa [wdMaskOf] using this

theorem wdMaskOf_eq_zero {dow : Bitints} : wdMaskOf dow = 0 ↔ bi447List dow = [] := by
  constructor
  · intro h
    refine List.eq_nil_iff_forall_not_mem.mpr fun t ht => ?_
    by_cases hr : 1 ≤ t ∧ t ≤ 7
    · have hbit := (testBit_wdMaskOf dow (w := t.toNat) (by omega)).mpr
        (by rw [Int.toNat_of_nonneg (by omega)]; exact mem_plainDays.mpr ⟨ht, hr⟩)
      rw [h, Nat.zero_testBit] at hbit
      cases hbit
    · have hodd := wdMaskOf_odd.mpr ⟨t, ht, hr⟩
      rw [h] at hodd
      cases hodd
  · intro h
    unfold wdMaskOf
    rw [h]
    rfl

/-! ### Days -/

/-- A listed month day is found where the month has it. -/
theorem domOf_eq {n : Nat} (hn : n ≤ 31) {t : Int} (h : -(n + 1 : Int) ≤ t) :
    domOf n t = (pick (List.range' 1 n) t).map fun d : Nat => (d : Int) := by
  rw [Picks.pick_range']
  unfold domOf
  by_cases hpos : 0 < t ∧ t ≤ n
  · rw [if_pos hpos, if_pos hpos, Option.map_some, Int.toNat_of_nonneg (by omega)]
  · rw [if_neg hpos, if_neg hpos]
    by_cases hneg : t < 0
    · have hu : u32OfInt ((n : Int) + 1 + t) = (n + 1 + t).toNat := by
        rw [show (n : Int) + 1 + t = ((n + 1 + t).toNat : Int) by omega]
        exact u32OfInt_ofNat (by omega)
      rw [hu]
      by_cases hfirst : t = -(n + 1 : Int)
      · rw [if_neg fun h => h.2 (by omega), if_neg (by omega)]
        rfl
      · rw [if_pos ⟨hneg, by omega⟩, if_pos ⟨hneg, by omega⟩, Option.map_some,
          Int.toNat_of_nonneg (by omega)]
        congr 1
        omega
    · rw [if_neg (by omega), if_neg (by omega)]
      rfl

section Month

variable {y m : Nat} (hright : RightMonth y m)
include hright

theorem RightMonth.wday_eq {d : Nat} (hd : d < 1073741824) : wdayGreg y m d = weekday (dayNo y m d) :=
  wdayGreg_eq hright.year.1 hright.year.2 hright.month.1 hright.month.2 hd

/-- A counted entry gives the day it counts to. -/
theorem counted_iff {t : Int} (ht : IsCd t) (hc : (unpackCd t).cnt ≠ 0) (x : Int) :
    (ymcwGetDom y m (unpackCd t).cnt (unpackCd t).dow ≠ 0 ∧
        x = codeOf m (ymcwGetDom y m (unpackCd t).cnt (unpackCd t).dow)) ↔
      ∃ d : Nat, EntryTakes y m t d ∧ x = codeOf m d := by
  obtain ⟨-, -, hw⟩ := unpackCd_range ht
  have hdom := ymcwGetDom_pick hright hw hc
  unfold EntryTakes
  simp only [if_neg hc]
  cases hp : pick (monthWeekdays y m (unpackCd t).dow) (unpackCd t).cnt with
  | none =>
      rw [hp] at hdom
      refine iff_of_false (fun h => h.1 hdom) ?_
      rintro ⟨d, hd, -⟩
      cases hd
  | some d =>
      have hd := (Gregorian.mem_monthWeekdays.mp (Picks.pick_mem hp)).1.1
      have hne : d ≠ 0 := by omega
      rw [hp, Option.getD_some] at hdom
      rw [hdom]
      constructor
      · rintro ⟨-, rfl⟩
        exact ⟨d, rfl, rfl⟩
      · rintro ⟨k, hk, rfl⟩
        cases hk
        exact ⟨hne, rfl⟩

/-- Going through a month takes the days on a plain weekday. -/
theorem plain_iff {dow : Bitints} (hdow : ∀ t ∈ bi447List dow, IsCd t) (hne : wdMaskOf dow ≠ 0) (x : Int) :
    (∃ j < ndimGreg y m, (wdMaskOf dow == 0 || maskHas (wdMaskOf dow) (wdayFrom (wdayGreg y m 1) j)) = true ∧
        x = codeOf m ((1 + j : Nat) : Int)) ↔
      ∃ t ∈ bi447List dow, (unpackCd t).cnt = 0 ∧ ∃ d : Nat, EntryTakes y m t d ∧ x = codeOf m d := by
  have hzero : (wdMaskOf dow == 0) = false := by simpa using hne
  have hwd : ∀ j, wdayFrom (wdayGreg y m 1) j = weekday (dayNo y m (1 + j)) := by
    intro j
    rw [hright.wday_eq (by decide)]
    unfold wdayFrom weekday dayNo Months.dayNo
    omega
  simp only [hzero, Bool.false_or, hwd, hright.len]
  unfold maskHas EntryTakes
  constructor
  · rintro ⟨j, hj, hbit, rfl⟩
    have hmem := (testBit_wdMaskOf dow (w := weekday (dayNo y m (1 + j)))
      (by unfold weekday; omega)).mp hbit
    obtain ⟨ht, hr⟩ := mem_plainDays.mp hmem
    have hcd := hdow _ ht
    have h0 := hcd.plain_iff.mpr hr
    refine ⟨_, ht, h0, 1 + j, ?_, rfl⟩
    rw [if_pos h0, Gregorian.mem_monthWeekdays]
    refine ⟨⟨by omega, by omega⟩, ?_⟩
    have := hcd.dow_eq h0
    omega
  · rintro ⟨t, ht, h0, d, htakes, rfl⟩
    have hcd := hdow t ht
    rw [if_pos h0, Gregorian.mem_monthWeekdays] at htakes
    obtain ⟨⟨h1, hle⟩, hw⟩ := htakes
    have hd : 1 + (d - 1) = d := by omega
    refine ⟨d - 1, by omega, ?_, by rw [hd]⟩
    rw [hd, testBit_wdMaskOf dow (by unfold weekday; omega), hw, hcd.dow_eq h0]
    exact mem_plainDays.mpr ⟨ht, hcd.plain_iff.mp h0⟩

/-- Of the listed month days those are taken that are on a plain weekday, if there are any. -/
theorem listed_iff {dow : Bitints} {ds : List Int}
    (hds : ∀ t ∈ ds, -31 ≤ t ∧ -(monthDays y m + 1 : Int) ≤ t) (x : Int) :
    (∃ t ∈ ds, ∃ d, domOf (ndimGreg y m) t = some d ∧
        (maskPlain (wdMaskOf dow) && !maskHas (wdMaskOf dow) (wdayGreg y m (u32OfInt d))) = false ∧
          x = codeOf m d) ↔
      ∃ d : Nat, (DomListed ds (monthDays y m) d ∧
        (plainDays dow ≠ [] → (weekday (dayNo y m d) : Int) ∈ plainDays dow)) ∧ x = codeOf m d := by
  have hn := Gregorian.monthDays_range y m
  have hdom : ∀ t ∈ ds, domOf (ndimGreg y m) t =
      (pick (List.range' 1 (monthDays y m)) t).map fun d : Nat => (d : Int) := by
    intro t ht
    have := hds t ht
    rw [hright.len]
    exact domOf_eq hn.2 this.2
  have hmask : ∀ d : Nat, d ≤ 31 →
      ((maskPlain (wdMaskOf dow) && !maskHas (wdMaskOf dow) (wdayGreg y m (u32OfInt d))) = false ↔
        (plainDays dow ≠ [] → (weekday (dayNo y m d) : Int) ∈ plainDays dow)) := by
    intro d hd
    rw [u32OfInt_ofNat (by omega), hright.wday_eq (by omega), ← maskPlain_wdMaskOf,
      ← testBit_wdMaskOf dow (by unfold weekday; omega)]
    unfold maskHas
    cases maskPlain (wdMaskOf dow) <;> simp
  constructor
  · rintro ⟨t, ht, d, hd, hskip, rfl⟩
    rw [hdom t ht, Option.map_eq_some_iff] at hd
    obtain ⟨k, hk, rfl⟩ := hd
    have hrange := List.mem_range'_1.mp (Picks.pick_mem hk)
    exact ⟨k, ⟨⟨t, ht, hk⟩, (hmask k (by omega)).mp hskip⟩, rfl⟩
  · rintro ⟨d, ⟨⟨t, ht, hd⟩, hplain⟩, rfl⟩
    have hrange := List.mem_range'_1.mp (Picks.pick_mem hd)
    exact ⟨t, ht, d, by rw [hdom t ht, hd]; rfl, (hmask d (by omega)).mpr hplain, rfl⟩

/-- **What the generators of a monthly rule take of a month**, as long as no month day is more than
one before its first. -/
theorem mem_mlyFill {rr : Rrulsp} (hr : rr.Ranged) (hscale : rr.scale = .gregorian) {p : Parts}
    (hp : ∀ t ∈ p.d, -31 ≤ t ∧ -(monthDays y m + 1 : Int) ≤ t) (hmask : p.wdMask = wdMaskOf rr.dow) (x : Int) :
    x ∈ bi383List (mlyFill rr p y m) ↔ ∃ d : Nat, MonthDayTaken rr p.d y m d ∧ x = codeOf m d := by
  have hdow := isCd_of_ranged hr
  have hm := hright.month
  have hnil : ∀ x, x ∉ bi383List .nil := fun x h => by cases h
  have hfit : DomFits .gregorian y m p.d :=
    domFits_gregorian y hm fun t ht => (hp t ht).1
  unfold mlyFill MonthDayTaken
  rw [hscale, hmask]
  dsimp only
  cases hd : p.d with
  | cons t ts =>
      -- month days are listed
      have hcand : (if wdMaskOf rr.dow ≠ 0 ∧ (!(t :: ts).isEmpty) = true then Bitints.nil
          else if wdMaskOf rr.dow ≠ 0 then
            fillMlyYmdAllD
              (if wdMaskOf rr.dow % 2 = 1 ∧ Scale.gregorian = .gregorian then fillMlyYmcw .nil y m rr.dow
                else .nil) .gregorian y m (wdMaskOf rr.dow)
          else .nil) = .nil := by
        split
        · rfl
        · rename_i h
          rw [if_neg fun h0 => h ⟨h0, rfl⟩]
      rw [hcand, if_pos (show (!(t :: ts).isEmpty) = true from rfl)]
      simp only [if_neg (List.cons_ne_nil t ts)]
      rw [← hd]
      have hmem := (adds_fillMlyYmd hm hfit (wdMaskOf rr.dow)).mem .nil codeSet_nil x
      rw [hmem, ← listed_iff hright hp]
      exact or_iff_left (hnil x)
  | nil =>
      rw [if_neg (by decide : ¬ (!([] : List Int).isEmpty) = true)]
      simp only [if_true, and_true]
      by_cases h0 : wdMaskOf rr.dow = 0
      · rw [if_neg fun h => h.1 h0, if_neg (not_not.mpr h0), wdMaskOf_eq_zero.mp h0]
        refine iff_of_false (hnil x) ?_
        rintro ⟨d, ⟨t, ht, -⟩, -⟩
        cases ht
      · rw [if_neg (fun h => by cases h.2), if_pos h0]
        have hodd : (if wdMaskOf rr.dow % 2 = 1 then fillMlyYmcw .nil y m rr.dow else .nil) =
            fillMlyYmcw .nil y m rr.dow := by
          split
          · rfl
          · -- no entry is counted
            rename_i heven
            have hplain : ∀ t ∈ bi447List rr.dow, (unpackCd t).cnt = 0 := by
              intro t ht
              refine (hdow t ht).plain_iff.mpr ?_
              by_contra hno
              exact heven (wdMaskOf_odd.mpr ⟨t, ht, hno⟩)
            unfold fillMlyYmcw
            generalize bi447List rr.dow = ts at hplain
            induction ts with
            | nil => rfl
            | cons t ts ih =>
                rw [List.foldl_cons]
                dsimp only
                rw [if_pos (hplain t List.mem_cons_self)]
                exact ih fun s hs => hplain s (List.mem_cons_of_mem _ hs)
        rw [hodd]
        have hcw := adds_fillMlyYmcw y hm rr.dow
        have hall := adds_fillMlyYmdAllD .gregorian y hm (wdMaskOf rr.dow)
        rw [hall.mem _ (hcw.codes _ codeSet_nil), hcw.mem _ codeSet_nil]
        have hplain := plain_iff hright hdow h0 x
        constructor
        · rintro (h | ⟨t, ht, hc, h⟩ | h)
          · obtain ⟨t, ht, -, d, htakes, hx⟩ := hplain.mp h
            exact ⟨d, ⟨t, ht, htakes⟩, hx⟩
          · obtain ⟨d, htakes, hx⟩ := (counted_iff hright (hdow t ht) hc x).mp h
            exact ⟨d, ⟨t, ht, htakes⟩, hx⟩
          · exact absurd h (hnil x)
        · rintro ⟨d, ⟨t, ht, htakes⟩, hx⟩
          by_cases hc : (unpackCd t).cnt = 0
          · exact Or.inl (hplain.mpr ⟨t, ht, hc, d, htakes, hx⟩)
          · exact Or.inr (Or.inl ⟨t, ht, hc, (counted_iff hright (hdow t ht) hc x).mpr ⟨d, htakes, hx⟩⟩)

end Month

end Echse
