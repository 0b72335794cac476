/-
Carrying days into months.

Days added to a date are carried into the months that follow, one month a turn.  A turn
takes off the days of the month it leaves, and it takes them off as often as they go
in.  So nothing is lost as long as the date is not past twice the month's length, which
is what `DaysFit` asks of a step, besides that the month lengths are the calendar's.
-/
import Echse.Expand
import Echse.Proofs.Calendar

namespace Echse

open Months (before)

/-! ### Positions on a calendar -/

/-- Month lengths by year and month, counted through. -/
def lenOf (ndim : Nat → Nat → Nat) (k : Nat) : Nat := ndim (k / 12) (k % 12 + 1)

/-- The month of a position in the count. -/
def Pos.month (p : Pos) : Nat := Gregorian.monthNo p.y p.m

/-- The day number of a position. -/
def Pos.dayNo (len : Nat → Nat) (p : Pos) : Nat := Months.dayNo len p.month p.d

theorem lenOf_monthNo (ndim : Nat → Nat → Nat) {y m : Nat} (h1 : 1 ≤ m) (h12 : m ≤ 12) :
    lenOf ndim (Gregorian.monthNo y m) = ndim y m := by
  unfold lenOf Gregorian.monthNo
  rw [show (12 * y + (m - 1)) / 12 = y by omega, show (12 * y + (m - 1)) % 12 + 1 = m by omega]

/-- A date of the calendar `len`, with the length that `ndim` gives its month. -/
structure Pos.On (ndim : Nat → Nat → Nat) (len : Nat → Nat) (p : Pos) : Prop where
  month : 1 ≤ p.m ∧ p.m ≤ 12
  maxd : p.maxd = ndim p.y p.m
  day : Months.Valid len p.month p.d

/-- `k` days can be added to a position. -/
structure DaysFit (ndim : Nat → Nat → Nat) (len : Nat → Nat) (p : Pos) (k : Nat) : Prop where
  /-- No month is gone past by more than its own length. -/
  near : ∀ j ≥ p.month, before len j < p.dayNo len + k →
    p.dayNo len + k ≤ before len j + 2 * lenOf ndim j
  /-- Where `ndim` is not the month's length, the days stay within the month. -/
  real : ∀ j ≥ p.month, lenOf ndim j ≠ len j → p.dayNo len + k ≤ before len j + len j
  /-- Years and days stay small. -/
  year : p.dayNo len + k ≤ before len (12 * 1073741823)
  small : p.d + k < 2147483648

section Carry

variable {ndim : Nat → Nat → Nat} {len : Nat → Nat} {T : Nat}

theorem month_succ_of_lt {p : Pos} (h12 : p.m < 12) (h1 : 1 ≤ p.m) :
    Gregorian.monthNo p.y (p.m + 1) = p.month + 1 := by
  unfold Pos.month Gregorian.monthNo
  omega

theorem month_succ_of_eq {p : Pos} (h12 : p.m = 12) :
    Gregorian.monthNo (p.y + 1) 1 = p.month + 1 := by
  unfold Pos.month Gregorian.monthNo
  omega

/-- **Carrying keeps the day number.**  A turn leaves a month behind with all its days,
as the day is at most one month past its end. -/
theorem carryDays_spec (newYear : Pos → Pos) (hle : ∀ j, len j ≤ lenOf ndim j) {k0 : Nat}
    (hnear : ∀ j ≥ k0, before len j < T → T ≤ before len j + 2 * lenOf ndim j)
    (hreal : ∀ j ≥ k0, lenOf ndim j ≠ len j → T ≤ before len j + len j)
    (hyear : T ≤ before len (12 * 1073741823)) (fuel : Nat) :
    ∀ p : Pos, (newYear = id ∨ T ≤ before len (12 * (p.y + 1))) →
      1 ≤ p.m ∧ p.m ≤ 12 → p.maxd = ndim p.y p.m → k0 ≤ p.month → 1 ≤ p.d →
      p.dayNo len = T → p.d ≤ fuel →
      ∃ q, carryDays ndim newYear fuel p = some q ∧
        q = { p with y := q.y, m := q.m, d := q.d, maxd := q.maxd } ∧
        q.On ndim len ∧ q.dayNo len = T ∧ p.y ≤ q.y ∧
        (T ≤ before len (12 * (p.y + 1)) → q.y = p.y) := by
  induction fuel with
  | zero => intro p _ _ _ _ h1 _ hf; omega
  | succ fuel ih =>
      intro p hnew hm hmaxd hk0 hd1 hT hf
      have hlen : lenOf ndim p.month = p.maxd := by rw [hmaxd]; exact lenOf_monthNo ndim hm.1 hm.2
      have hTd : before len p.month + p.d = T := hT
      unfold carryDays
      by_cases hle' : p.d ≤ p.maxd
      · rw [if_pos hle']
        refine ⟨p, rfl, rfl, ⟨hm, hmaxd, hd1, ?_⟩, hT, le_rfl, fun _ => rfl⟩
        by_cases hr : lenOf ndim p.month = len p.month
        · omega
        · have := hreal p.month hk0 hr
          omega
      · -- the month is left, so its length is the calendar's
        have hr : lenOf ndim p.month = len p.month := by
          by_contra hr
          have := hreal p.month hk0 hr
          have := hle p.month
          omega
        have hn := hnear p.month hk0 (by omega)
        have hmod : (p.d - 1) % p.maxd + 1 = p.d - p.maxd := by
          rw [Nat.mod_eq_sub_mod (by omega), Nat.mod_eq_of_lt (by omega)]
          omega
        rw [if_neg hle', if_neg (by omega)]
        dsimp only
        rw [hmod]
        have hnext : before len (p.month + 1) + (p.d - p.maxd) = T := by
          rw [Months.before_succ]
          omega
        by_cases h12 : 12 < p.m + 1
        · have hmonth := month_succ_of_eq (p := p) (by omega)
          have hT' : before len (12 * (p.y + 1)) < T := by
            have : 12 * (p.y + 1) = p.month + 1 := by
              unfold Pos.month Gregorian.monthNo
              omega
            rw [this]
            omega
          have hy : p.y + 1 < 1073741823 := by
            by_contra hy
            have := Months.before_le len (show 12 * 1073741823 ≤ 12 * (p.y + 1) by omega)
            omega
          obtain rfl : newYear = id := by
            rcases hnew with hnew | hnew
            · exact hnew
            · omega
          rw [if_pos h12, u32_of_lt (by omega)]
          obtain ⟨q, hq, heq, hon, hno, hle2, -⟩ :=
            ih { p with y := p.y + 1, m := 1, d := p.d - p.maxd, maxd := ndim (p.y + 1) 1 }
              (Or.inl rfl) ⟨le_rfl, show 1 ≤ 12 by omega⟩ rfl
              (by change k0 ≤ Gregorian.monthNo (p.y + 1) 1; omega)
              (by change 1 ≤ p.d - p.maxd; omega)
              (by change before len (Gregorian.monthNo (p.y + 1) 1) + (p.d - p.maxd) = T
                  rw [hmonth]; exact hnext)
              (by change p.d - p.maxd ≤ fuel; omega)
          refine ⟨q, hq, heq, hon, hno, ?_, fun h => by omega⟩
          change p.y + 1 ≤ q.y at hle2
          omega
        · have hmonth := month_succ_of_lt (p := p) (by omega) hm.1
          rw [if_neg h12]
          obtain ⟨q, hq, heq, hon, hno, hle2, hsame⟩ :=
            ih { p with m := p.m + 1, d := p.d - p.maxd, maxd := ndim p.y (p.m + 1) }
              hnew ⟨by change 1 ≤ p.m + 1; omega, by change p.m + 1 ≤ 12; omega⟩ rfl
              (by change k0 ≤ Gregorian.monthNo p.y (p.m + 1); omega)
              (by change 1 ≤ p.d - p.maxd; omega)
              (by change before len (Gregorian.monthNo p.y (p.m + 1)) + (p.d - p.maxd) = T
                  rw [hmonth]; exact hnext)
              (by change p.d - p.maxd ≤ fuel; omega)
          exact ⟨q, hq, heq, hon, hno, hle2, hsame⟩

/-- What carrying does to a position that `k` days have been added to. -/
theorem carry_spec (newYear : Pos → Pos) (hle : ∀ j, len j ≤ lenOf ndim j) {p r : Pos} {k : Nat}
    (hon : p.On ndim len) (hfit : DaysFit ndim len p k)
    (hr : r = { p with d := p.d + k, H := r.H, M := r.M, S := r.S, w := r.w, yd := r.yd })
    (hnew : newYear = id ∨ p.dayNo len + k ≤ before len (12 * (p.y + 1))) :
    ∃ q, carry ndim newYear r = some q ∧
      q = { r with y := q.y, m := q.m, d := q.d, maxd := q.maxd } ∧
      q.On ndim len ∧ q.dayNo len = p.dayNo len + k ∧ p.y ≤ q.y ∧
      (p.dayNo len + k ≤ before len (12 * (p.y + 1)) → q.y = p.y) := by
  have hy : r.y = p.y := by rw [hr]
  have hm : r.m = p.m := by rw [hr]
  have hd : r.d = p.d + k := by rw [hr]
  have hmaxd : r.maxd = p.maxd := by rw [hr]
  have hmonth : r.month = p.month := by unfold Pos.month; rw [hy, hm]
  have hno : r.dayNo len = p.dayNo len + k := by
    unfold Pos.dayNo Months.dayNo
    rw [hmonth, hd]
    omega
  have hd1 := hon.day.1
  obtain ⟨q, hq, heq, hon', hno', hyle, hysame⟩ :=
    carryDays_spec newYear hle hfit.near hfit.real hfit.year r.d r
      (by rw [hy]; exact hnew) (by rw [hm]; exact hon.month)
      (by rw [hmaxd, hy, hm]; exact hon.maxd) (by rw [hmonth]) (by omega) hno le_rfl
  rw [hy] at hyle hysame
  exact ⟨q, hq, heq, hon', hno', hyle, hysame⟩

end Carry

/-! ### Gregorian months

These are all about as long, so what counts is the month that is left first.
-/

theorem daysFit_of_commonRule {p : Pos} {k : Nat} (hon : p.On ndimGreg Gregorian.len)
    (hnear : p.d + k ≤ 2 * p.maxd) (hy : p.y + 2 ≤ 1073741823) (hrule : CommonRule p.y)
    (hrule' : CommonRule (p.y + 1)) : DaysFit ndimGreg Gregorian.len p k := by
  have hd := hon.day
  have hm := hon.month
  have hmaxd : lenOf ndimGreg p.month = p.maxd := by
    rw [hon.maxd]
    exact lenOf_monthNo _ hm.1 hm.2
  have hrange : ∀ j, 28 ≤ lenOf ndimGreg j ∧ lenOf ndimGreg j ≤ 31 :=
    fun j => ndimGreg_range _ (by omega) (by omega)
  have hlen : lenOf ndimGreg p.month = Gregorian.len p.month :=
    ndimGreg_eq (by omega) (by omega) fun _ => by
      rw [show p.month / 12 = p.y by unfold Pos.month Gregorian.monthNo; omega]
      exact hrule
  have hnext : ∀ j, p.month < j → p.dayNo Gregorian.len + k ≤ before Gregorian.len j + 31 := by
    intro j hj
    have hle := Months.before_le Gregorian.len (Nat.succ_le_of_lt hj)
    have hs : before Gregorian.len p.month.succ
        = before Gregorian.len p.month + Gregorian.len p.month := rfl
    have := (hrange p.month).2
    unfold Pos.dayNo Months.dayNo
    omega
  -- two years on is out of reach
  have hyears : p.dayNo Gregorian.len + k ≤ before Gregorian.len (12 * (p.y + 2)) := by
    have h1 := hnext (12 * (p.y + 1)) (by unfold Pos.month Gregorian.monthNo; omega)
    have h2 : before Gregorian.len (12 * (p.y + 2))
        = before Gregorian.len (12 * (p.y + 1)) + (365 + Gregorian.leapDay (p.y + 1)) := by
      rw [show 12 * (p.y + 2) = 12 * (p.y + 1) + 12 by omega, Gregorian.before_year_add _ le_rfl]
      rfl
    omega
  refine ⟨?_, ?_, ?_, ?_⟩
  · intro j hj _
    rcases Nat.eq_or_lt_of_le hj with rfl | hj
    · rw [hmaxd]
      unfold Pos.dayNo Months.dayNo
      omega
    · have := hnext j hj
      have := (hrange j).1
      omega
  · intro j hj hne
    obtain ⟨h2, hno⟩ := ndimGreg_ne (y := j / 12) (m := j % 12 + 1) (by omega) (by omega) hne
    have hge : p.y ≤ j / 12 := by
      unfold Pos.month Gregorian.monthNo at hj
      omega
    have h0 : j / 12 ≠ p.y := fun h => hno (h ▸ hrule)
    have h1 : j / 12 ≠ p.y + 1 := fun h => hno (h ▸ hrule')
    have := Months.before_le Gregorian.len (show 12 * (p.y + 2) ≤ j by omega)
    omega
  · have := Months.before_le Gregorian.len
      (show 12 * (p.y + 2) ≤ 12 * 1073741823 by omega)
    omega
  · have := (hrange p.month).2
    omega

/-! ### Beyond

Where a date goes past its month by more than the month's length, whole months get lost.
-/

/-- Carrying never gains days, on the calendar of its own month lengths. -/
theorem carryDays_le (ndim : Nat → Nat → Nat) (fuel : Nat) :
    ∀ p q : Pos, 1 ≤ p.m ∧ p.m ≤ 12 → p.maxd = ndim p.y p.m →
      carryDays ndim id fuel p = some q → q.dayNo (lenOf ndim) ≤ p.dayNo (lenOf ndim) ∧
        (2 * p.maxd < p.d → q.dayNo (lenOf ndim) < p.dayNo (lenOf ndim) ∨ fuel = 0) := by
  induction fuel with
  | zero => intro p q _ _ h; cases h; exact ⟨le_rfl, fun _ => Or.inr rfl⟩
  | succ fuel ih =>
      intro p q hm hmaxd h
      have hlen : lenOf ndim p.month = p.maxd := by rw [hmaxd]; exact lenOf_monthNo ndim hm.1 hm.2
      unfold carryDays at h
      split at h
      · cases h
        exact ⟨le_rfl, fun _ => by omega⟩
      · split at h
        · cases h
        · rename_i hle h0
          dsimp only at h
          have hmod : (p.d - 1) % p.maxd + 1 + p.maxd ≤ p.d ∧
              (2 * p.maxd < p.d → (p.d - 1) % p.maxd + 1 + p.maxd < p.d) := by
            have hlt := Nat.mod_lt (p.d - 1) (Nat.pos_of_ne_zero h0)
            have hdiv := Nat.div_add_mod (p.d - 1) p.maxd
            have h1 : 1 ≤ (p.d - 1) / p.maxd := (Nat.one_le_div_iff (by omega)).mpr (by omega)
            have hmul : p.maxd * 1 ≤ p.maxd * ((p.d - 1) / p.maxd) := Nat.mul_le_mul_left _ h1
            omega
          have hdrop : ∀ r : Pos, r.month ≤ p.month + 1 → r.d = (p.d - 1) % p.maxd + 1 →
              r.dayNo (lenOf ndim) ≤ p.dayNo (lenOf ndim) ∧
                (2 * p.maxd < p.d → r.dayNo (lenOf ndim) < p.dayNo (lenOf ndim)) := by
            intro r hr hrd
            have hle := Months.before_le (lenOf ndim) hr
            rw [Months.before_succ, hlen] at hle
            unfold Pos.dayNo Months.dayNo
            omega
          split at h
          · have hmonth := month_succ_of_eq (p := p) (by omega)
            have hdr := hdrop { p with y := u32 (p.y + 1), m := 1, d := (p.d - 1) % p.maxd + 1 }
              (by change Gregorian.monthNo (u32 (p.y + 1)) 1 ≤ _
                  have := u32_le (p.y + 1)
                  unfold Gregorian.monthNo at hmonth ⊢
                  omega) rfl
            have hq := (ih _ q ⟨le_rfl, show 1 ≤ 12 by omega⟩ rfl h).1
            exact ⟨hq.trans hdr.1, fun h2 => Or.inl (lt_of_le_of_lt hq (hdr.2 h2))⟩
          · have hmonth := month_succ_of_lt (p := p) (by omega) hm.1
            have hdr := hdrop { p with m := p.m + 1, d := (p.d - 1) % p.maxd + 1 }
              (by change Gregorian.monthNo p.y (p.m + 1) ≤ _; omega) rfl
            have hq := (ih _ q ⟨show 1 ≤ p.m + 1 by omega, show p.m + 1 ≤ 12 by omega⟩ rfl h).1
            exact ⟨hq.trans hdr.1, fun h2 => Or.inl (lt_of_le_of_lt hq (hdr.2 h2))⟩

/-- **Days that go past twice the month's length fall short.** -/
theorem carry_short {ndim : Nat → Nat → Nat} {p q : Pos} {k : Nat} (hm : 1 ≤ p.m ∧ p.m ≤ 12)
    (hmaxd : p.maxd = ndim p.y p.m) (hfar : 2 * p.maxd < p.d + k)
    (h : carry ndim id { p with d := p.d + k } = some q) :
    q.dayNo (lenOf ndim) < p.dayNo (lenOf ndim) + k := by
  have hlt := (carryDays_le ndim (p.d + k) { p with d := p.d + k } q hm hmaxd h).2 hfar
  have hno : ({ p with d := p.d + k } : Pos).dayNo (lenOf ndim) = p.dayNo (lenOf ndim) + k := by
    unfold Pos.dayNo Months.dayNo
    change before (lenOf ndim) p.month + (p.d + k) = _
    omega
  rcases hlt with hlt | h0
  · omega
  · omega

end Echse
