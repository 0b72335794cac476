/-
Moving candidates: the buckets of `shift`.

The loop that brings a day back into its month counts in a calendar in which every fourth year is a
leap year.  It is the true one from March 1900 to February 2100.
-/
import Echse.Proofs.Bdays
import Echse.Proofs.Counted
import Echse.Proofs.Weekdays

namespace Echse

open Months (before)
open Gregorian (monthNo dayNo Valid IsYearDay yearStart yearLen yearDaysBefore before_year_add_of)

/-! ### Back into the month -/

/-- The months as `__get_ndom` has them. -/
abbrev ndomLen : Nat → Nat := lenOf getNdom

theorem getNdom_range (y : Nat) {m : Nat} (hm : 1 ≤ m ∧ m ≤ 12) :
    28 ≤ getNdom y m ∧ getNdom y m ≤ 31 := ndimGreg_range y hm.1 hm.2

theorem ndomLen_monthNo {y m : Nat} (hm : 1 ≤ m ∧ m ≤ 12) : ndomLen (monthNo y m) = getNdom y m :=
  lenOf_monthNo getNdom hm.1 hm.2

theorem le_before_ndomLen (k : Nat) : 28 * k ≤ before ndomLen k := by
  induction k with
  | zero => exact Nat.zero_le _
  | succ k ih =>
      have hlen : 28 ≤ ndomLen k := (getNdom_range (k / 12) (m := k % 12 + 1) (by omega)).1
      rw [Months.before_succ]
      omega

/-- A date as the code counts. -/
structure CodeDate (t : Nat × Int × Int) (n : Nat) : Prop where
  month : 1 ≤ t.2.1 ∧ t.2.1 ≤ 12
  day : 1 ≤ t.2.2 ∧ t.2.2 ≤ getNdom t.1 t.2.1.toNat
  dayNo : (before ndomLen (monthNo t.1 t.2.1.toNat) : Int) + t.2.2 = n

/-- **The loop keeps the day** and ends with a date. -/
theorem reassess_spec {n : Nat} (h1 : 1 ≤ n) (hn : n < 4294967296) (fuel : Nat) :
    ∀ {y m : Nat} {d : Int}, 1 ≤ m ∧ m ≤ 12 → before ndomLen (monthNo y m) < 4294967296 →
      (before ndomLen (monthNo y m) : Int) + d = n →
      (d.natAbs + 1 < fuel ∨ (0 < fuel ∧ 1 ≤ d ∧ d ≤ getNdom y m)) →
      CodeDate (reassess fuel y m d) n := by
  induction fuel with
  | zero =>
      intro y m d _ _ _ hf
      omega
  | succ fuel ih =>
      intro y m d hm hlt hno hf
      have hsmall : 28 * (12 * y) ≤ before ndomLen (monthNo y m) :=
        (Nat.mul_le_mul_left 28 (Nat.le_add_right _ _)).trans (le_before_ndomLen _)
      unfold reassess
      by_cases hle : d ≤ 0
      · rw [if_pos hle]
        dsimp only
        -- the month before is there, as the day is not before the first of all
        have hpos : monthNo y m ≠ 0 := by
          intro h0
          rw [h0, Months.before_zero] at hno
          omega
        by_cases hfirst : m = 1
        · subst hfirst
          have hy : 1 ≤ y := by
            unfold monthNo at hpos
            omega
          have hy' : u32OfInt ((y : Int) - 1) = y - 1 := by
            unfold u32OfInt wordOfInt
            omega
          have hmonth : monthNo y 1 = monthNo (y - 1) 12 + 1 := by
            unfold monthNo
            omega
          have hlen := getNdom_range (y - 1) (m := 12) (by decide)
          rw [hmonth, Months.before_succ, ndomLen_monthNo (by decide)] at hno hlt
          rw [if_pos (by decide), if_pos (by decide), hy']
          exact ih (m := 12) (by decide) (by omega) (by simp; omega) (by simp; omega)
        · have hmonth : monthNo y m = monthNo y (m - 1) + 1 := by
            unfold monthNo
            omega
          have hlen := getNdom_range y (m := m - 1) (by omega)
          rw [hmonth, Months.before_succ, ndomLen_monthNo (by omega)] at hno hlt
          rw [if_neg (by omega), if_neg (by omega),
            show (m : Int) - 1 = ((m - 1 : Nat) : Int) by omega]
          exact ih (by omega) (by omega) (by simp; omega) (by simp; omega)
      · rw [if_neg hle, Int.toNat_natCast]
        have hlen := getNdom_range y hm
        by_cases hbig : (getNdom y m : Int) < d
        · rw [if_pos hbig]
          dsimp only
          by_cases hlast : m = 12
          · subst hlast
            have hy' : u32 (y + 1) = y + 1 := by
              unfold u32
              omega
            have hmonth : monthNo (y + 1) 1 = monthNo y 12 + 1 := by
              unfold monthNo
              omega
            rw [if_pos (by decide), if_pos (by decide), hy']
            refine ih (m := 1) (by decide) ?_ ?_ (by omega)
            all_goals
              rw [hmonth, Months.before_succ, ndomLen_monthNo (by decide)]
              omega
          · have hmonth : monthNo y (m + 1) = monthNo y m + 1 := by
              unfold monthNo
              omega
            rw [if_neg (by omega), if_neg (by omega),
              show (m : Int) + 1 = ((m + 1 : Nat) : Int) by omega]
            refine ih (by omega) ?_ ?_ (by omega)
            all_goals
              rw [hmonth, Months.before_succ, ndomLen_monthNo hm]
              omega
        · rw [if_neg hbig]
          exact ⟨⟨Int.ofNat_le.mpr hm.1, Int.ofNat_le.mpr hm.2⟩,
            ⟨by dsimp only; omega, Int.not_lt.mp hbig⟩, hno⟩

/-! ### The two calendars -/

/-- The number of a date as the code counts. -/
def codeNo (y m d : Nat) : Nat := Months.dayNo ndomLen (monthNo y m) d

theorem before_ndomLen_add (y : Nat) {i : Nat} (hi : i ≤ 12) :
    before ndomLen (12 * y + i) = before ndomLen (12 * y) + yearDaysBefore (leap4 y) i := by
  refine before_year_add_of (fun i hi => ?_) hi
  have hlen := ndomLen_monthNo (y := y) (m := i + 1) (by omega)
  rw [monthNo, Nat.add_sub_cancel] at hlen
  rw [hlen]
  unfold getNdom ndimGreg gregMdays leap4
  interval_cases i <;> simp [yearDaysBefore] <;> split <;> omega

theorem before_ndomLen_year (y : Nat) : before ndomLen (12 * y) = 365 * y + (y + 3) / 4 := by
  induction y with
  | zero => rfl
  | succ y ih =>
      have hyear : before ndomLen (12 * (y + 1)) = before ndomLen (12 * y) + (365 + leap4 y) := by
        rw [Nat.mul_succ, before_ndomLen_add y le_rfl]
        rfl
      have h4 := Gregorian.div_succ y 4 (by decide)
      simp only [Nat.add_one_sub_one] at h4
      rw [hyear, ih]
      unfold leap4
      omega

theorem codeNo_eq (y : Nat) {m : Nat} (hm : 1 ≤ m ∧ m ≤ 12) (d : Nat) :
    codeNo y m d = 365 * y + (y + 3) / 4 + yearDaysBefore (leap4 y) (m - 1) + d := by
  unfold codeNo Months.dayNo monthNo
  rw [before_ndomLen_add y (by omega), before_ndomLen_year]

/-- The days on which every fourth year is a leap year. -/
def FourthYears (n : Int) : Prop := (dayNo 1900 2 28 : Int) < n ∧ n ≤ (dayNo 2100 2 28 : Nat)

theorem fourthYears_iff (n : Int) : FourthYears n ↔ 694020 < n ∧ n ≤ 767069 := by
  unfold FourthYears
  rw [Gregorian.dayNo_closed 1900 (by decide) (by decide),
    Gregorian.dayNo_closed 2100 (by decide) (by decide)]
  rfl

/-- How far the two calendars are apart, in the years there may be candidates in. -/
theorem codeNo_dayNo {y : Nat} (hy : 1900 ≤ y ∧ y ≤ 2100) {m : Nat} (hm : 1 ≤ m ∧ m ≤ 12)
    (d : Nat) :
    codeNo y m d + (if y = 1900 ∧ m ≤ 2 then 1 else 0) =
      dayNo y m d + 15 + if y = 2100 ∧ 3 ≤ m then 1 else 0 := by
  rw [codeNo_eq y hm, Gregorian.dayNo_closed y hm.1 hm.2]
  by_cases h00 : y = 1900 ∨ y = 2100
  · have h19 : leap4 1900 = 1 ∧ Gregorian.leapDay 1900 = 0 := by decide
    have h21 : leap4 2100 = 1 ∧ Gregorian.leapDay 2100 = 0 := by decide
    obtain ⟨h1, h12⟩ := hm
    rcases h00 with rfl | rfl
    · rw [h19.1, h19.2]
      interval_cases m <;> simp [yearDaysBefore] <;> omega
    · rw [h21.1, h21.2]
      interval_cases m <;> simp [yearDaysBefore] <;> omega
  · have hleap : leap4 y = Gregorian.leapDay y := leap4_eq (by omega)
    rw [hleap, if_neg (by omega), if_neg (by omega)]
    omega

theorem codeNo_of_fourthYears {y m d : Nat} (h : Valid y m d) (hn : FourthYears (dayNo y m d)) :
    1900 ≤ y ∧ y ≤ 2100 ∧ codeNo y m d = dayNo y m d + 15 := by
  have hrange := (fourthYears_iff _).mp hn
  have hday : IsYearDay y (yearDaysBefore (Gregorian.leapDay y) (m - 1) + d) m d :=
    (Gregorian.isYearDay_iff h).mpr rfl
  have hin := hday.range
  have hstart := Gregorian.before_year y
  have hlen := Gregorian.yearLen_range y
  have hno := hday.2
  unfold yearStart at hno
  obtain ⟨h1, h12, hd1, hd⟩ := h
  have hy : 1900 ≤ y ∧ y ≤ 2100 := by omega
  have hapart := codeNo_dayNo hy ⟨h1, h12⟩ d
  have h19 : y = 1900 → 3 ≤ m := by
    rintro rfl
    by_contra hm
    have hfirst : yearDaysBefore (Gregorian.leapDay 1900) (m - 1) + d ≤ 59 := by
      have hjan : Gregorian.monthDays 1900 1 = 31 := by decide
      have hfeb : Gregorian.monthDays 1900 2 = 28 := by decide
      interval_cases m <;> simp only [yearDaysBefore] <;> omega
    omega
  have h21 : y = 2100 → m ≤ 2 := by
    rintro rfl
    by_contra hm
    have hfirst : 59 ≤ yearDaysBefore (Gregorian.leapDay 2100) (m - 1) := by
      interval_cases m <;> simp only [yearDaysBefore] <;> omega
    omega
  refine ⟨hy.1, hy.2, ?_⟩
  rw [if_neg fun h => absurd (h19 h.1) (by omega),
    if_neg fun h => absurd (h21 h.1) (by omega)] at hapart
  omega

/-! ### The buckets -/

/-- The candidates of a year. -/
structure DateSet (y : Nat) (c : Bitints) : Prop where
  codes : CodeSet c
  dates : ∀ x ∈ bi383List c, ∃ m d, Valid y m d ∧ x = codeOf m d

/-- Each bucket is a set of codes. -/
structure Cands.Codes (r : Cands) : Prop where
  this : CodeSet r.this
  prev : CodeSet r.prev
  next : CodeSet r.next

/-- The bucket for the dates of a year, as seen from year `y`. -/
def Cands.bucket (r : Cands) (y nuY : Nat) : Bitints :=
  if nuY = y then r.this else if y < nuY then r.next else r.prev

/-- Two years go into the same bucket. -/
def SameBucket (y a b : Nat) : Prop := (a = y ↔ b = y) ∧ (y < a ↔ y < b)

theorem Cands.Codes.bucket {r : Cands} (h : r.Codes) (y nuY : Nat) : CodeSet (r.bucket y nuY) := by
  unfold Cands.bucket
  split
  · exact h.this
  · split
    · exact h.next
    · exact h.prev

theorem Cands.Codes.put {r : Cands} (h : r.Codes) (y nuY : Nat) {x : Int} (h1 : 1 ≤ x)
    (h383 : x ≤ 383) : (r.put y nuY x).Codes := by
  unfold Cands.put
  split
  · exact ⟨h.this.ass h1 h383, h.prev, h.next⟩
  · split
    · exact ⟨h.this, h.prev, h.next.ass h1 h383⟩
    · exact ⟨h.this, h.prev.ass h1 h383, h.next⟩

theorem mem_put {r : Cands} (h : r.Codes) (y nuY : Nat) {x : Int} (h1 : 1 ≤ x) (h383 : x ≤ 383)
    (a : Nat) (z : Int) : z ∈ bi383List ((r.put y nuY x).bucket y a) ↔
      (SameBucket y nuY a ∧ z = x) ∨ z ∈ bi383List (r.bucket y a) := by
  unfold Cands.put Cands.bucket SameBucket
  by_cases hput : nuY = y
  · subst hput
    by_cases ha : a = nuY
    · subst ha
      simp [h.this.mem_ass h1 h383]
    · simp [ha]
  · rw [if_neg hput]
    by_cases hlt : y < nuY
    · rw [if_pos hlt]
      by_cases ha : y < a
      · have hne : a ≠ y := by omega
        simp [hput, hlt, ha, hne, h.next.mem_ass h1 h383]
      · simp [hlt, ha]
    · rw [if_neg hlt]
      by_cases ha : a = y
      · simp [hput, ha]
      · by_cases hgt : y < a
        · simp [hlt, ha, hgt]
        · simp [hput, hlt, ha, hgt, h.prev.mem_ass h1 h383]

/-- Every candidate goes into the bucket of its year. -/
theorem foldl_put {xs : List Int} (yr : Int → Nat) (code : Int → Int) (y : Nat)
    (hcode : ∀ c ∈ xs, 1 ≤ code c ∧ code c ≤ 383) : ∀ {r : Cands}, r.Codes →
      (xs.foldl (fun r c => r.put y (yr c) (code c)) r).Codes ∧
        ∀ a z, z ∈ bi383List ((xs.foldl (fun r c => r.put y (yr c) (code c)) r).bucket y a) ↔
          (∃ c ∈ xs, SameBucket y (yr c) a ∧ z = code c) ∨ z ∈ bi383List (r.bucket y a) := by
  induction xs with
  | nil => exact fun h => ⟨h, fun a z => by simp⟩
  | cons c xs ih =>
      intro r h
      obtain ⟨h1, h383⟩ := hcode c List.mem_cons_self
      obtain ⟨hcodes, hmem⟩ := ih (fun c hc => hcode c (List.mem_cons_of_mem _ hc))
        (h.put y (yr c) h1 h383)
      refine ⟨hcodes, fun a z => ?_⟩
      rw [List.foldl_cons, hmem, mem_put h y (yr c) h1 h383]
      simp only [List.mem_cons, exists_eq_or_imp]
      exact or_left_comm.trans or_assoc.symm

/-! ### Moving a set -/

/-- The date with a number as the code counts. -/
structure Lands (n : Int) (y m d : Nat) : Prop where
  month : 1 ≤ m ∧ m ≤ 12
  day : 1 ≤ d ∧ d ≤ getNdom y m
  no : (codeNo y m d : Int) = n

theorem Lands.unique {n : Int} {y m d y' m' d' : Nat} (h : Lands n y m d) (h' : Lands n y' m' d') :
    y = y' ∧ m = m' ∧ d = d' := by
  have hno : codeNo y m d = codeNo y' m' d' := by
    have h1 := h.no
    have h2 := h'.no
    omega
  have hvalid : Months.Valid ndomLen (monthNo y m) d :=
    ⟨h.day.1, (ndomLen_monthNo h.month).symm ▸ h.day.2⟩
  have hvalid' : Months.Valid ndomLen (monthNo y' m') d' :=
    ⟨h'.day.1, (ndomLen_monthNo h'.month).symm ▸ h'.day.2⟩
  obtain ⟨hmonth, rfl⟩ := Months.dayNo_inj hvalid hvalid' hno
  have hm := h.month
  have hm' := h'.month
  unfold monthNo at hmonth
  omega

theorem Lands.range {n : Int} {y m d : Nat} (h : Lands n y m d) : 1 ≤ d ∧ d ≤ 31 :=
  ⟨h.day.1, h.day.2.trans (getNdom_range y h.month).2⟩

theorem CodeDate.lands {t : Nat × Int × Int} {n : Nat} (h : CodeDate t n) :
    Lands n t.1 t.2.1.toNat t.2.2.toNat := by
  have hm := h.month
  have hd := h.day
  have hno := h.dayNo
  refine ⟨by omega, by omega, ?_⟩
  unfold codeNo Months.dayNo
  omega

theorem unpackCand_codeOf {m d : Nat} (hm : 1 ≤ m ∧ m ≤ 12) (hd : 1 ≤ d ∧ d ≤ 31) :
    unpackCand (codeOf m d) = ⟨m, d⟩ := by
  unfold unpackCand codeOf u32OfInt wordOfInt u32
  congr 1 <;> omega

/-- What both loops of `shift` do, with the number of days for each candidate. -/
def shiftBy (off : Int → Int) (cand : Bitints) (y : Nat) : Cands :=
  (bi383List cand).foldl (fun res c =>
    res.putDay y (unpackCand c).m ((unpackCand c).d + off c)) ⟨.nil, .nil, .nil⟩

theorem shiftDays_eq (cand : Bitints) (y : Nat) (d : Int) :
    shiftDays cand y d = shiftBy (fun _ => d) cand y := rfl

theorem shiftBdays_eq (cand : Bitints) (y : Nat) (sh : Int) :
    shiftBdays cand y sh = shiftBy (fun c => bdayOffs
      (ymdGetWday y (unpackCand c).m (unpackCand c).d) (echsShiftBvalue sh) (echsShiftNegP sh)
      (echsShiftInvP sh)) cand y := rfl

/-- A candidate of `C` comes to lie on a date. -/
def LandsOn (y : Nat) (C : Bitints) (off : Int → Int) (Y M D : Nat) : Prop :=
  ∃ m d : Nat, Valid y m d ∧ codeOf m d ∈ bi383List C ∧
    Lands ((codeNo y m d : Int) + off (codeOf m d)) Y M D

/-- Where a candidate of the year lands. -/
def landing (off : Int → Int) (y : Nat) (c : Int) : Nat × Int × Int :=
  reassess (((unpackCand c).d + off c).natAbs + 2) y (unpackCand c).m ((unpackCand c).d + off c)

theorem landing_spec {y : Nat} (hy : 1901 ≤ y ∧ y ≤ 2099) {m d : Nat} (hv : Valid y m d)
    {off : Int → Int} (hoff : -2000 ≤ off (codeOf m d) ∧ off (codeOf m d) ≤ 2000) :
    ∃ Y M D : Nat, landing off y (codeOf m d) = (Y, (M : Int), (D : Int)) ∧
      Lands ((codeNo y m d : Int) + off (codeOf m d)) Y M D := by
  obtain ⟨h1, h12, hd1, hd⟩ := hv
  have hd31 := (Gregorian.monthDays_range y m).2
  have hno := codeNo_dayNo (y := y) (by omega) ⟨h1, h12⟩ d
  have hcode := codeNo_eq y ⟨h1, h12⟩ d
  have hn : ((((codeNo y m d : Int) + off (codeOf m d)).toNat : Nat) : Int) =
      (codeNo y m d : Int) + off (codeOf m d) := by omega
  have hday : codeNo y m d = before ndomLen (monthNo y m) + d := rfl
  have hlast : yearDaysBefore (leap4 y) (m - 1) ≤ 335 := by
    have := leap4_le y
    interval_cases m <;> simp only [yearDaysBefore] <;> omega
  have hspec := reassess_spec (n := ((codeNo y m d : Int) + off (codeOf m d)).toNat) (by omega)
    (by omega) (((d : Int) + off (codeOf m d)).natAbs + 2) (y := y) (m := m)
    (d := (d : Int) + off (codeOf m d)) ⟨h1, h12⟩ (by omega) (by omega) (Or.inl (by omega))
  have hland : landing off y (codeOf m d) =
      reassess (((d : Int) + off (codeOf m d)).natAbs + 2) y m ((d : Int) + off (codeOf m d)) := by
    unfold landing
    rw [unpackCand_codeOf ⟨h1, h12⟩ ⟨hd1, hd.trans hd31⟩]
  have hlands := hspec.lands
  rw [hn, ← hland] at hlands
  have hm := hspec.month
  have hd := hspec.day
  rw [← hland] at hm hd
  refine ⟨_, _, _, ?_, hlands⟩
  rw [Int.toNat_of_nonneg (by omega), Int.toNat_of_nonneg (by omega)]

/-- **What is in the buckets.** -/
theorem shiftBy_spec {y : Nat} (hy : 1901 ≤ y ∧ y ≤ 2099) {C : Bitints} (hC : DateSet y C)
    {off : Int → Int} (hoff : ∀ c ∈ bi383List C, -2000 ≤ off c ∧ off c ≤ 2000) :
    (shiftBy off C y).Codes ∧ ∀ a z, z ∈ bi383List ((shiftBy off C y).bucket y a) ↔
      ∃ Y M D, LandsOn y C off Y M D ∧ SameBucket y Y a ∧ z = codeOf M D := by
  have hfold : shiftBy off C y = (bi383List C).foldl (fun r c => r.put y (landing off y c).1
      (packCand (landing off y c).2.1.toNat (landing off y c).2.2)) ⟨.nil, .nil, .nil⟩ := rfl
  have hpack : ∀ c ∈ bi383List C, ∃ m d Y M D : Nat, c = codeOf m d ∧ Valid y m d ∧
      Lands ((codeNo y m d : Int) + off c) Y M D ∧ (landing off y c).1 = Y ∧
      packCand (landing off y c).2.1.toNat (landing off y c).2.2 = codeOf M D := by
    intro c hc
    obtain ⟨m, d, hv, rfl⟩ := hC.dates c hc
    obtain ⟨Y, M, D, hland, hl⟩ := landing_spec hy hv (hoff _ hc)
    refine ⟨m, d, Y, M, D, rfl, hv, hl, ?_, ?_⟩
    · rw [hland]
    · have hr := codeOf_range hl.month (d := D) (by have := hl.range; omega)
      rw [hland]
      exact packCand_eq hr.1 hr.2
  have hrange : ∀ c ∈ bi383List C, 1 ≤ packCand (landing off y c).2.1.toNat (landing off y c).2.2 ∧
      packCand (landing off y c).2.1.toNat (landing off y c).2.2 ≤ 383 := by
    intro c hc
    obtain ⟨m, d, Y, M, D, -, -, hl, -, hcode⟩ := hpack c hc
    rw [hcode]
    exact codeOf_range hl.month (by have := hl.range; omega)
  obtain ⟨hcodes, hmem⟩ := foldl_put (fun c => (landing off y c).1)
    (fun c => packCand (landing off y c).2.1.toNat (landing off y c).2.2) y hrange
    (r := ⟨.nil, .nil, .nil⟩) ⟨codeSet_nil, codeSet_nil, codeSet_nil⟩
  rw [hfold]
  refine ⟨hcodes, fun a z => ?_⟩
  have hnil : ¬ z ∈ bi383List ((⟨.nil, .nil, .nil⟩ : Cands).bucket y a) := by
    unfold Cands.bucket
    split
    · exact fun h => by cases h
    · split <;> exact fun h => by cases h
  rw [hmem, or_iff_left hnil]
  constructor
  · rintro ⟨c, hc, hb, rfl⟩
    obtain ⟨m, d, Y, M, D, rfl, hv, hl, hyr, hcode⟩ := hpack c hc
    rw [hyr] at hb
    exact ⟨Y, M, D, ⟨m, d, hv, hc, hl⟩, hb, hcode⟩
  · rintro ⟨Y, M, D, ⟨m, d, hv, hc, hl⟩, hb, rfl⟩
    obtain ⟨m', d', Y', M', D', heq, hv', hl', hyr, hcode⟩ := hpack _ hc
    have hd31 := (Gregorian.monthDays_range y m).2
    have hd31' := (Gregorian.monthDays_range y m').2
    obtain ⟨rfl, rfl⟩ := codeOf_inj ⟨hv.2.2.1, hv.2.2.2.trans hd31⟩
      ⟨hv'.2.2.1, hv'.2.2.2.trans hd31'⟩ heq
    obtain ⟨rfl, rfl, rfl⟩ := hl.unique hl'
    exact ⟨codeOf m d, hc, hyr.symm ▸ hb, hcode.symm⟩

/-! ### When the buckets are right -/

/-- A bucket is exactly what `S` has of a year. -/
def Filled (bi : Bitints) (y : Nat) (S : Int → Prop) : Prop :=
  ∀ z, z ∈ bi383List bi ↔ ∃ m d : Nat, Valid y m d ∧ S (dayNo y m d) ∧ z = codeOf m d

/-- The buckets are exactly the days in `S`, each in the one of its year. -/
structure Bucketed (r : Cands) (y : Nat) (S : Int → Prop) : Prop where
  this : Filled r.this y S
  prev : Filled r.prev (y - 1) S
  next : Filled r.next (y + 1) S
  all : ∀ n, S n → (yearStart (y - 1) : Int) < n ∧ n ≤ yearStart (y + 2)

/-- The days that the candidates are moved to. -/
def MovedBy (y : Nat) (C : Bitints) (off : Int → Int) (n : Int) : Prop :=
  ∃ m d : Nat, Valid y m d ∧ codeOf m d ∈ bi383List C ∧ n = dayNo y m d + off (codeOf m d)

/-- There is a bucket for the day, and the code knows the calendar there. -/
def InReach (y : Nat) (n : Int) : Prop :=
  ((yearStart (y - 1) : Int) < n ∧ n ≤ yearStart (y + 2)) ∧ FourthYears n

theorem valid_year {y m d : Nat} (h : Valid y m d) :
    yearStart y < dayNo y m d ∧ dayNo y m d ≤ yearStart (y + 1) := by
  have hday : IsYearDay y (yearDaysBefore (Gregorian.leapDay y) (m - 1) + d) m d :=
    (Gregorian.isYearDay_iff h).mpr rfl
  have hrange := hday.range
  have hno := hday.2
  rw [Gregorian.yearStart_succ]
  omega

theorem yearStart_mono {a b : Nat} (h : a ≤ b) : yearStart a ≤ yearStart b :=
  Months.before_le _ (Nat.mul_le_mul_left 12 h)

theorem year_of_range {y m d a b : Nat} (h : Valid y m d) (ha : yearStart a < dayNo y m d)
    (hb : dayNo y m d ≤ yearStart (b + 1)) : a ≤ y ∧ y ≤ b := by
  have hy := valid_year h
  constructor
  · by_contra hlt
    have := yearStart_mono (a := y + 1) (b := a) (by omega)
    omega
  · by_contra hlt
    have := yearStart_mono (a := b + 1) (b := y) (by omega)
    omega

theorem fourthYears_of_valid {y m d : Nat} (hy : 1900 ≤ y ∧ y ≤ 2100) (h : Valid y m d)
    (hlo : y = 1900 → 3 ≤ m) (hhi : y = 2100 → m ≤ 2) : FourthYears (dayNo y m d) := by
  have hin := valid_year h
  have h1901 := Gregorian.before_year 1901
  have h2100 := Gregorian.before_year 2100
  rw [fourthYears_iff]
  constructor
  · by_cases h00 : y = 1900
    · subst h00
      have hm := hlo rfl
      have hno := Gregorian.dayNo_closed 1900 h.1 h.2.1 d
      have hd := h.2.2.1
      have hfirst : 59 ≤ yearDaysBefore (Gregorian.leapDay 1900) (m - 1) := by
        have h12 := h.2.1
        interval_cases m <;> simp only [yearDaysBefore] <;> omega
      omega
    · have := yearStart_mono (a := 1901) (b := y) (by omega)
      unfold yearStart at *
      omega
  · by_cases h00 : y = 2100
    · subst h00
      have hm := hhi rfl
      have hno := Gregorian.dayNo_closed 2100 h.1 h.2.1 d
      have hd := h.2.2.2
      have hjan : Gregorian.monthDays 2100 1 = 31 := by decide
      have hfeb : Gregorian.monthDays 2100 2 = 28 := by decide
      have h1 := h.1
      interval_cases m <;> simp only [yearDaysBefore] at hno <;> omega
    · have := yearStart_mono (a := y + 1) (b := 2100) (by omega)
      unfold yearStart at *
      omega

theorem lands_of_fourthYears {y m d : Nat} (h : Valid y m d) (hn : FourthYears (dayNo y m d)) :
    Lands ((dayNo y m d : Int) + 15) y m d := by
  obtain ⟨-, -, hcode⟩ := codeNo_of_fourthYears h hn
  exact ⟨⟨h.1, h.2.1⟩, ⟨h.2.2.1, h.2.2.2.trans (monthDays_le_ndimGreg h.1 h.2.1)⟩, by omega⟩

theorem codeNo_cand {y : Nat} (hy : 1901 ≤ y ∧ y ≤ 2099) {m d : Nat} (h : Valid y m d) :
    codeNo y m d = dayNo y m d + 15 := by
  have hno := codeNo_dayNo (y := y) (by omega) ⟨h.1, h.2.1⟩ d
  rw [if_neg (by omega), if_neg (by omega)] at hno
  exact hno

/-- The date that a day in reach has. -/
theorem date_in_reach {y : Nat} {n : Int} (hn : InReach y n) : ∃ Y M D : Nat, Valid Y M D ∧
    (dayNo Y M D : Int) = n ∧ y - 1 ≤ Y ∧ Y ≤ y + 1 ∧ Lands (n + 15) Y M D := by
  have hpos := (fourthYears_iff n).mp hn.2
  obtain ⟨g, hv, hg⟩ := exists_date (n - 1).toNat
  have hno : (dayNo g.y g.m g.d : Int) = n := by omega
  have hin := hn.1
  obtain ⟨hlo, hhi⟩ := year_of_range hv (a := y - 1) (b := y + 1) (by omega) (by
    rw [show y + 1 + 1 = y + 2 from rfl]
    omega)
  refine ⟨g.y, g.m, g.d, hv, hno, hlo, hhi, ?_⟩
  rw [← hno]
  exact lands_of_fourthYears hv (hno ▸ hn.2)

/-- In reach a candidate lands where it should. -/
theorem lands_in_reach {y : Nat} (hy : 1901 ≤ y ∧ y ≤ 2099) {m d : Nat} (hv : Valid y m d) {k : Int}
    (hreach : InReach y (dayNo y m d + k)) {Y M D : Nat}
    (hl : Lands ((codeNo y m d : Int) + k) Y M D) :
    Valid Y M D ∧ (dayNo Y M D : Int) = dayNo y m d + k ∧ y - 1 ≤ Y ∧ Y ≤ y + 1 := by
  obtain ⟨Y', M', D', hv', hno, hlo, hhi, hl'⟩ := date_in_reach hreach
  rw [codeNo_cand hy hv] at hl
  have hl'' : Lands (((dayNo y m d + 15 : Nat) : Int) + k) Y' M' D' := by
    convert hl' using 1
    omega
  obtain ⟨rfl, rfl, rfl⟩ := hl.unique hl''
  exact ⟨hv', hno, hlo, hhi⟩

/-- **The buckets are right** if every candidate stays in reach. -/
theorem shiftBy_exact {y : Nat} (hy : 1901 ≤ y ∧ y ≤ 2099) {C : Bitints} (hC : DateSet y C)
    {off : Int → Int} (hoff : ∀ c ∈ bi383List C, -2000 ≤ off c ∧ off c ≤ 2000)
    (hreach : ∀ n, MovedBy y C off n → InReach y n) :
    Bucketed (shiftBy off C y) y (MovedBy y C off) := by
  obtain ⟨-, hmem⟩ := shiftBy_spec hy hC hoff
  have hfill : ∀ a, y - 1 ≤ a → a ≤ y + 1 →
      Filled ((shiftBy off C y).bucket y a) a (MovedBy y C off) := by
    intro a ha1 ha2 z
    rw [hmem]
    constructor
    · rintro ⟨Y, M, D, ⟨m, d, hv, hc, hl⟩, hb, rfl⟩
      have hmoved : MovedBy y C off (dayNo y m d + off (codeOf m d)) := ⟨m, d, hv, hc, rfl⟩
      obtain ⟨hv', hno, hlo, hhi⟩ := lands_in_reach hy hv (hreach _ hmoved) hl
      obtain rfl : Y = a := by
        unfold SameBucket at hb
        omega
      exact ⟨M, D, hv', hno.symm ▸ hmoved, rfl⟩
    · rintro ⟨M, D, hv', hmoved, rfl⟩
      obtain ⟨m, d, hv, hc, hno⟩ := hmoved
      have hl := lands_of_fourthYears hv' (hreach _ ⟨m, d, hv, hc, hno⟩).2
      refine ⟨a, M, D, ⟨m, d, hv, hc, ?_⟩, ⟨Iff.rfl, Iff.rfl⟩, rfl⟩
      rw [codeNo_cand hy hv]
      convert hl using 1
      omega
  refine ⟨?_, ?_, ?_, fun n hn => (hreach n hn).1⟩
  · have h := hfill y (by omega) (by omega)
    unfold Cands.bucket at h
    rwa [if_pos rfl] at h
  · have h := hfill (y - 1) (by omega) (by omega)
    unfold Cands.bucket at h
    rwa [if_neg (by omega), if_neg (by omega)] at h
  · have h := hfill (y + 1) (by omega) (by omega)
    unfold Cands.bucket at h
    rwa [if_neg (by omega), if_pos (by omega)] at h

section Days

variable {y : Nat} {C : Bitints} {d : Int}

/-- A code that is right of the wrong date is of a candidate that goes further. -/
theorem moved_of_filled (hy : 1901 ≤ y ∧ y ≤ 2099) (hC : DateSet y C) (hd : -2000 ≤ d ∧ d ≤ 2000)
    {Y M D : Nat} (hv : Valid Y M D)
    (hfill : Filled ((shiftBy (fun _ => d) C y).bucket y Y) Y (MovedBy y C fun _ => d))
    (hmoved : MovedBy y C (fun _ => d) (dayNo Y M D)) :
    ∃ Y' n, SameBucket y Y' Y ∧ MovedBy y C (fun _ => d) n ∧ Lands (n + 15) Y' M D := by
  have hcode := (hfill (codeOf M D)).mpr ⟨M, D, hv, hmoved, rfl⟩
  rw [(shiftBy_spec hy hC fun _ _ => hd).2] at hcode
  obtain ⟨Y', M', D', ⟨m, e, hv', hc, hl⟩, hb, heq⟩ := hcode
  have h31 := (Gregorian.monthDays_range Y M).2
  obtain ⟨rfl, rfl⟩ := codeOf_inj ⟨hv.2.2.1, hv.2.2.2.trans h31⟩ hl.range heq
  refine ⟨Y', dayNo y m e + d, hb, ⟨m, e, hv', hc, rfl⟩, ?_⟩
  rw [codeNo_cand hy hv'] at hl
  convert hl using 1
  dsimp only
  omega

theorem codeNo_mono {a b m d : Nat} (h : a ≤ b) : codeNo a m d ≤ codeNo b m d := by
  have hle := Months.before_le ndomLen (j := monthNo a m) (k := monthNo b m) (by
    unfold monthNo
    omega)
  unfold codeNo Months.dayNo
  omega

/-- From the last of February 2100 on there is always a candidate that goes further. -/
theorem moved_further (hy : 1901 ≤ y ∧ y ≤ 2099) (hC : DateSet y C) (hd : -2000 ≤ d ∧ d ≤ 2000)
    (hr : Bucketed (shiftBy (fun _ => d) C y) y (MovedBy y C fun _ => d)) {n : Int}
    (hn : MovedBy y C (fun _ => d) n) (hlate : 767069 < n) :
    ∃ n', MovedBy y C (fun _ => d) n' ∧ n < n' := by
  have hall := hr.all n hn
  have hy2100 : yearStart 2100 = 767010 := by
    have := Gregorian.before_year 2100
    unfold yearStart
    omega
  obtain rfl : y = 2099 := by
    by_contra hne
    have := yearStart_mono (a := y + 2) (b := 2100) (by omega)
    omega
  obtain ⟨g, hv, hg⟩ := exists_date (n - 1).toNat
  have hend : yearStart (2100 + 1) = yearStart (2099 + 2) := rfl
  obtain ⟨hlo, hhi⟩ := year_of_range hv (a := 2100) (b := 2100) (by omega) (by omega)
  obtain hgy : g.y = 2100 := by omega
  rw [hgy] at hv hg
  have hno := codeNo_dayNo (y := 2100) (by decide) ⟨hv.1, hv.2.1⟩ g.d
  -- it is March or later
  have hm : 3 ≤ g.m := by
    by_contra hm
    have hfour := fourthYears_of_valid (by decide) hv (fun h => absurd h (by decide))
      fun _ => by omega
    rw [fourthYears_iff] at hfour
    omega
  rw [if_neg fun h => absurd h.1 (by decide), if_pos ⟨rfl, hm⟩] at hno
  have hn' : (dayNo 2100 g.m g.d : Int) = n := by omega
  obtain ⟨Y', n', hb, hmoved, hl⟩ := moved_of_filled hy hC hd hv hr.next (hn'.symm ▸ hn)
  have hmono := codeNo_mono (m := g.m) (d := g.d) (show 2100 ≤ Y' by
    unfold SameBucket at hb
    omega)
  have hcode := hl.no
  exact ⟨n', hmoved, by omega⟩

/-- Before March 1900 there is always one that goes further back. -/
theorem moved_further_back (hy : 1901 ≤ y ∧ y ≤ 2099) (hC : DateSet y C)
    (hd : -2000 ≤ d ∧ d ≤ 2000)
    (hr : Bucketed (shiftBy (fun _ => d) C y) y (MovedBy y C fun _ => d)) {n : Int}
    (hn : MovedBy y C (fun _ => d) n) (hearly : n ≤ 694020) :
    ∃ n', MovedBy y C (fun _ => d) n' ∧ n' < n := by
  have hall := hr.all n hn
  have hy1901 : yearStart 1901 = 694326 := by
    have := Gregorian.before_year 1901
    unfold yearStart
    omega
  obtain rfl : y = 1901 := by
    by_contra hne
    have := yearStart_mono (a := 1901) (b := y - 1) (by omega)
    omega
  obtain ⟨g, hv, hg⟩ := exists_date (n - 1).toNat
  have hstart : yearStart (1901 - 1) = yearStart 1900 := rfl
  have hend : yearStart (1900 + 1) = yearStart 1901 := rfl
  have hy1900 : yearStart 1900 = 693961 := by
    have := Gregorian.before_year 1900
    unfold yearStart
    omega
  obtain ⟨hlo, hhi⟩ := year_of_range hv (a := 1900) (b := 1900) (by omega) (by omega)
  obtain hgy : g.y = 1900 := by omega
  rw [hgy] at hv hg
  have hno := codeNo_dayNo (y := 1900) (by decide) ⟨hv.1, hv.2.1⟩ g.d
  -- it is February or earlier
  have hm : g.m ≤ 2 := by
    by_contra hm
    have hfour := fourthYears_of_valid (by decide) hv (fun _ => by omega)
      fun h => absurd h (by decide)
    rw [fourthYears_iff] at hfour
    omega
  rw [if_pos ⟨rfl, hm⟩, if_neg (by omega)] at hno
  have hn' : (dayNo 1900 g.m g.d : Int) = n := by omega
  obtain ⟨Y', n', hb, hmoved, hl⟩ := moved_of_filled hy hC hd hv hr.prev (hn'.symm ▸ hn)
  have hmono := codeNo_mono (m := g.m) (d := g.d) (show Y' ≤ 1900 by
    unfold SameBucket at hb
    omega)
  have hcode := hl.no
  exact ⟨n', hmoved, by omega⟩

/-- **Days are moved right** just if the candidates stay in reach. -/
theorem shiftDays_iff (hy : 1901 ≤ y ∧ y ≤ 2099) (hC : DateSet y C) (hd : -2000 ≤ d ∧ d ≤ 2000) :
    Bucketed (shiftBy (fun _ => d) C y) y (MovedBy y C fun _ => d) ↔
      ∀ n, MovedBy y C (fun _ => d) n → InReach y n := by
  refine ⟨fun hr n hn => ⟨hr.all n hn, ?_⟩, shiftBy_exact hy hC fun _ _ => hd⟩
  rw [fourthYears_iff]
  constructor
  · -- going on further and further back ends at the bucket
    have hdown : ∀ k : Nat, ∀ n, MovedBy y C (fun _ => d) n → n ≤ 694020 →
        n < yearStart (y - 1) + k → False := by
      intro k
      induction k with
      | zero =>
          intro n hn _ hlt
          have := (hr.all n hn).1
          omega
      | succ k ih =>
          intro n hn hearly hlt
          obtain ⟨n', hn', hlt'⟩ := moved_further_back hy hC hd hr hn hearly
          exact ih n' hn' (by omega) (by omega)
    by_contra hearly
    exact hdown ((n - yearStart (y - 1)).toNat + 1) n hn (by omega) (by omega)
  · have hup : ∀ k : Nat, ∀ n, MovedBy y C (fun _ => d) n → 767069 < n →
        yearStart (y + 2) < n + k → False := by
      intro k
      induction k with
      | zero =>
          intro n hn _ hlt
          have := (hr.all n hn).2
          omega
      | succ k ih =>
          intro n hn hlate hlt
          obtain ⟨n', hn', hlt'⟩ := moved_further hy hC hd hr hn hlate
          exact ih n' hn' (by omega) (by omega)
    by_contra hlate
    exact hup ((yearStart (y + 2) - n).toNat + 1) n hn (by omega) (by omega)

end Days

end Echse
