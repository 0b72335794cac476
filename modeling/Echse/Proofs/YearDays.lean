/-
The day of the year in `rrul_fill_Hly`.

At New Year the loop takes one less than the year's length off the day of the year.  So from
then on the day it carries is ahead of the true one, by a day for each New Year since the start.
-/
import Echse.Proofs.Grid

namespace Echse

open Months (before)

/-- What the years before `y` have taken off. -/
def yearsOff : Nat → Nat
  | 0 => 0
  | y + 1 => yearsOff y + (yearDays y - 1)

/-- A position of `rrul_fill_Hly` next to one of a loop that does not carry the day of the year.
What the day and the years passed make together is `c`, up to multiples of 2^32. -/
structure DaysAhead (c : Nat) (p q : Pos) : Prop where
  same : q = { p with yd := q.yd, maxy := q.maxy }
  maxy : q.maxy = yearDays p.y
  lt : q.yd < 4294967296
  sum : (q.yd + yearsOff p.y) % 4294967296 = c % 4294967296

theorem yearDays_range (y : Nat) : 365 ≤ yearDays y ∧ yearDays y ≤ 366 := by
  unfold yearDays
  split <;> omega

theorem DaysAhead.newYear {c : Nat} {p q : Pos} (h : DaysAhead c p q) (d : Nat) :
    DaysAhead c { p with y := p.y + 1, m := 1, d := d }
      (hlyNewYear { q with y := p.y + 1, m := 1, d := d }) := by
  have hrange := yearDays_range p.y
  refine ⟨?_, rfl, u32OfInt_lt _, ?_⟩
  · rw [h.same]
    rfl
  · have hsum := h.sum
    have hmaxy := h.maxy
    change (u32OfInt ((q.yd : Int) - ((q.maxy : Int) - 1)) + yearsOff (p.y + 1)) % 4294967296 = _
    unfold yearsOff u32OfInt wordOfInt
    rw [hmaxy]
    omega

theorem DaysAhead.month {c : Nat} {p q : Pos} (h : DaysAhead c p q) (m d maxd : Nat) :
    DaysAhead c { p with m := m, d := d, maxd := maxd } { q with m := m, d := d, maxd := maxd } :=
  ⟨by rw [h.same], h.maxy, h.lt, h.sum⟩

theorem carryDays_ahead {ndim : Nat → Nat → Nat} {c : Nat} (fuel : Nat) :
    ∀ p q, DaysAhead c p q → p.y + fuel < 4294967296 →
      ∀ p', carryDays ndim id fuel p = some p' →
        ∃ q', carryDays ndim hlyNewYear fuel q = some q' ∧ DaysAhead c p' q' := by
  induction fuel with
  | zero =>
      intro p q h _ p' hp
      cases hp
      exact ⟨q, rfl, h⟩
  | succ fuel ih =>
      intro p q h hy p' hp
      have hqd : q.d = p.d := by rw [h.same]
      have hqm : q.m = p.m := by rw [h.same]
      have hqy : q.y = p.y := by rw [h.same]
      have hqmaxd : q.maxd = p.maxd := by rw [h.same]
      unfold carryDays at hp ⊢
      rw [hqd, hqmaxd]
      by_cases hle : p.d ≤ p.maxd
      · rw [if_pos hle] at hp ⊢
        cases hp
        exact ⟨q, rfl, h⟩
      · rw [if_neg hle] at hp ⊢
        by_cases h0 : p.maxd = 0
        · rw [if_pos h0] at hp
          cases hp
        · rw [if_neg h0] at hp ⊢
          dsimp only at hp ⊢
          rw [hqm, hqy]
          by_cases h12 : 12 < p.m + 1
          · rw [if_pos h12] at hp ⊢
            rw [u32_of_lt (by omega)] at hp ⊢
            exact ih _ _ ((h.newYear ((p.d - 1) % p.maxd + 1)).month 1 ((p.d - 1) % p.maxd + 1)
              (ndim (p.y + 1) 1)) (by change p.y + 1 + fuel < _; omega) p' hp
          · rw [if_neg h12] at hp ⊢
            have hnext := h.month (p.m + 1) ((p.d - 1) % p.maxd + 1) (ndim p.y (p.m + 1))
            rw [hqy] at hnext
            exact ih _ _ hnext (by change p.y + fuel < _; omega) p' hp

/-- What one step of `rrul_fill_Hly` does, whether or not a year begins. -/
theorem hlyStep_ahead {p : Pos} {inter : Nat} (hon : p.On getNdom Gregorian.len)
    (hw : 1 ≤ p.w ∧ p.w ≤ 7) (hy : p.y < 65536) (hyd : p.yd < 65536) (hmaxy : p.maxy = yearDays p.y)
    (hfit : DaysFit getNdom Gregorian.len p ((p.H + inter) / 24)) :
    ∃ q, hlyStep inter p = some q ∧ Moved getNdom Gregorian.len p q ((p.H + inter) / 24) ∧
      q.w = wdayFrom p.w ((p.H + inter) / 24) ∧ q.H = (p.H + inter) % 24 ∧
      q.maxy = yearDays q.y ∧ q.yd < 4294967296 ∧
      (q.yd + yearsOff q.y) % 4294967296 =
        (p.yd + (p.H + inter) / 24 + yearsOff p.y) % 4294967296 := by
  have hk := days_le_of_fit hon hfit
  unfold hlyStep
  dsimp only
  rw [u32_of_lt (n := p.H + inter) (by omega)]
  generalize p.H + inter = h at hk hfit ⊢
  by_cases h24 : 24 ≤ h
  · rw [if_pos h24]
    unfold addDays
    rw [u32_of_lt (n := p.w + h / 24) (by omega), wrapWday_eq hw.1, u32_of_lt (by omega),
      u32_of_lt (by omega)]
    obtain ⟨r, hr⟩ : ∃ r : Pos, r = { p with d := p.d + h / 24, w := wdayFrom p.w (h / 24),
                                             yd := p.yd + h / 24, H := h % 24 } := ⟨_, rfl⟩
    obtain ⟨q, hq, heq, hon', hno, hyle, -⟩ := carry_spec id gregorian_len_le hon hfit (r := r)
      (by rw [hr]) (Or.inl rfl)
    have hself : DaysAhead (p.yd + h / 24 + yearsOff p.y) r r := by
      rw [hr]
      exact ⟨rfl, hmaxy, show p.yd + h / 24 < 4294967296 by omega, rfl⟩
    obtain ⟨q', hq', hahead⟩ := carryDays_ahead r.d r r hself
      (by rw [hr]; change p.y + (p.d + h / 24) < 4294967296; omega) q hq
    rw [hr] at hq' heq
    have hsame := hahead.same
    refine ⟨q', hq', ⟨⟨?_, ?_, ?_⟩, ?_, ?_⟩, ?_, ?_, ?_, hahead.lt, ?_⟩
    · rw [hsame]
      exact hon'.month
    · rw [hsame]
      exact hon'.maxd
    · rw [hsame]
      exact hon'.day
    · rw [hsame]
      exact hno
    · rw [hsame]
      exact hyle
    · rw [hsame, heq]
    · rw [hsame, heq]
    · rw [hahead.maxy, hsame]
    · have hsum := hahead.sum
      have hqy : q'.y = q.y := by rw [hsame]
      rw [hqy]
      exact hsum
  · rw [if_neg h24, Nat.div_eq_of_lt (by omega), Nat.mod_eq_of_lt (by omega)]
    exact ⟨{ p with H := h }, rfl, ⟨⟨hon.month, hon.maxd, hon.day⟩, rfl, le_rfl⟩,
      (wdayFrom_zero hw).symm, rfl, hmaxy, show p.yd < 4294967296 by omega, rfl⟩

/-! ### The true day -/

theorem before_year_succ (y : Nat) :
    before Gregorian.len (12 * (y + 1)) = before Gregorian.len (12 * y) + 365 + Gregorian.leapDay y := by
  rw [Nat.mul_succ, Gregorian.before_year_add y le_rfl, Nat.add_assoc]
  rfl

/-- Over years of the rule of four, it is one day a year. -/
theorem yearsOff_add {y0 y : Nat} (hle : y0 ≤ y) (hrule : ∀ i, y0 ≤ i → i < y → CommonRule i) :
    yearsOff y + before Gregorian.len (12 * y0) + y =
      yearsOff y0 + before Gregorian.len (12 * y) + y0 := by
  induction y, hle using Nat.le_induction with
  | base => rfl
  | succ y hle ih =>
      have hih := ih fun i h0 h1 => hrule i h0 (by omega)
      have hlen : yearDays y = 365 + Gregorian.leapDay y := by
        rw [leapDay_of_commonRule (hrule y hle (by omega))]
        unfold yearDays
        split <;> rfl
      have hsucc := before_year_succ y
      have hoff : yearsOff (y + 1) = yearsOff y + (yearDays y - 1) := rfl
      omega

/-- **The day of the year that is carried along**, `y0` being the year of the start. -/
def DayCarried (y0 : Nat) (p : Pos) : Prop :=
  p.yd + before Gregorian.len (12 * p.y) + y0 = p.dayNo Gregorian.len + p.y ∧ p.maxy = yearDays p.y

theorem Pos.year_bounds {ndim : Nat → Nat → Nat} {p : Pos} (hon : p.On ndim Gregorian.len) :
    before Gregorian.len (12 * p.y) < p.dayNo Gregorian.len ∧
      p.dayNo Gregorian.len ≤ before Gregorian.len (12 * (p.y + 1)) := by
  have hm := hon.month
  have hd := hon.day
  have hmonth : p.month = 12 * p.y + (p.m - 1) := rfl
  have h1 := Months.before_le Gregorian.len (show 12 * p.y ≤ p.month by omega)
  have h2 := Months.before_le Gregorian.len (show p.month + 1 ≤ 12 * (p.y + 1) by omega)
  rw [Months.before_succ] at h2
  have hno : p.dayNo Gregorian.len = before Gregorian.len p.month + p.d := rfl
  have hd1 := hd.1
  have hd2 : p.d ≤ Gregorian.len p.month := hd.2
  omega

/-- A step keeps it, over years of the rule of four. -/
theorem hlyStep_carried {p : Pos} {inter y0 : Nat} (hon : p.On getNdom Gregorian.len)
    (hw : 1 ≤ p.w ∧ p.w ≤ 7) (h0 : y0 ≤ p.y) (hyd : DayCarried y0 p)
    (hfit : DaysFit getNdom Gregorian.len p ((p.H + inter) / 24)) {y1 : Nat} (hy1 : y1 < 65536 - 366)
    (hrule : ∀ y, y0 ≤ y → y < y1 → CommonRule y)
    (hlast : p.dayNo Gregorian.len + (p.H + inter) / 24 ≤ before Gregorian.len (12 * (y1 + 1))) :
    ∃ q, hlyStep inter p = some q ∧ Moved getNdom Gregorian.len p q ((p.H + inter) / 24) ∧
      q.w = wdayFrom p.w ((p.H + inter) / 24) ∧ q.H = (p.H + inter) % 24 ∧ DayCarried y0 q := by
  have hyear : ∀ {r : Pos}, r.On getNdom Gregorian.len →
      r.dayNo Gregorian.len ≤ before Gregorian.len (12 * (y1 + 1)) → r.y ≤ y1 := by
    intro r hr hle
    by_contra hlt
    have h1 := Months.before_le Gregorian.len (show 12 * (y1 + 1) ≤ 12 * r.y by omega)
    have h2 := (Pos.year_bounds hr).1
    omega
  have hlen : ∀ y, Gregorian.leapDay y ≤ 1 := by
    intro y
    unfold Gregorian.leapDay
    split <;> omega
  have hpy := hyear hon (by omega)
  obtain ⟨hyd', hmaxy⟩ := hyd
  have hbp := Pos.year_bounds hon
  have hsp := before_year_succ p.y
  have hlp := hlen p.y
  obtain ⟨q, hq, hmv, hqw, hqH, hqmaxy, hqlt, hsum⟩ :=
    hlyStep_ahead hon hw (by omega) (by omega) hmaxy hfit
  have hqy := hyear hmv.on (by rw [hmv.dayNo]; exact hlast)
  refine ⟨q, hq, hmv, hqw, hqH, ?_, hqmaxy⟩
  have hbq := Pos.year_bounds hmv.on
  have hsq := before_year_succ q.y
  have hlq := hlen q.y
  have hoff := yearsOff_add hmv.year fun i h1 h2 => hrule i (h0.trans h1) (by omega)
  have hno := hmv.dayNo
  have hge := hmv.year
  generalize (p.H + inter) / 24 = k at *
  omega

end Echse
