/-
The steps of the loops from weeks down to seconds.

Each loop moves its position on by INTERVAL of its unit and carries what it tracks of
the date: the weekday, and in `rrul_fill_Hly` the day of the year and the year's
length.  A step does so exactly as long as the days it adds can be carried (`DaysFit`)
and, for hours, as long as the year does not change.
-/
import Echse.Proofs.Carry
import Echse.Lib.FillOrbit
import Echse.Snarf

namespace Echse

open Months (before)
open FillLoop (Loop)

/-! ### The calendar of a scale -/

/-- The month lengths of a scale's calendar.  For the Gregorian one these are the true
ones; the others have no lengths but those of `echs_scale_ndim`. -/
def scaleLen (s : Scale) : Nat → Nat :=
  if s = .gregorian then Gregorian.len else lenOf (echsScaleNdim s)

theorem gregorian_len_le (j : Nat) : Gregorian.len j ≤ lenOf ndimGreg j :=
  monthDays_le_ndimGreg (by omega) (by omega)

theorem scaleLen_le (s : Scale) (j : Nat) : scaleLen s j ≤ lenOf (echsScaleNdim s) j := by
  unfold scaleLen
  split
  · rename_i h
    rw [h]
    exact gregorian_len_le j
  · exact le_rfl

/-- The weekday `n` days after weekday `w`. -/
def wdayFrom (w : Nat) (n : Nat) : Nat := (w - 1 + n) % 7 + 1

theorem wdayFrom_add (w : Nat) (m n : Nat) :
    wdayFrom (wdayFrom w m) n = wdayFrom w (m + n) := by
  unfold wdayFrom
  omega

theorem wdayFrom_zero {w : Nat} (h : 1 ≤ w ∧ w ≤ 7) : wdayFrom w 0 = w := by
  unfold wdayFrom
  omega

theorem wdayFrom_range (w : Nat) (n : Nat) : 1 ≤ wdayFrom w n ∧ wdayFrom w n ≤ 7 := by
  unfold wdayFrom
  omega

theorem wrapWday_eq {w : Nat} {n : Nat} (h : 1 ≤ w) : wrapWday (w + n) = wdayFrom w n := by
  unfold wrapWday wdayFrom wdaySun
  split <;> (try split) <;> omega

theorem echsScaleWday_range (s : Scale) (y m d : Nat) :
    1 ≤ echsScaleWday s y m d ∧ echsScaleWday s y m d ≤ 7 := by
  have hgreg : 1 ≤ wdayGreg y m d ∧ wdayGreg y m d ≤ 7 := by
    unfold wdayGreg wdaySun
    dsimp only
    generalize u32 _ = res
    split <;> omega
  have hht : ∀ cal, 1 ≤ wdayHt cal y m d ∧ wdayHt cal y m d ≤ 7 := by
    intro cal
    unfold wdayHt
    omega
  have hhij : ∀ t e, 1 ≤ wdayHij t e y m d ∧ wdayHij t e y m d ≤ 7 := by
    intro t e
    unfold wdayHij
    omega
  cases s with
  | gregorian => exact hgreg
  | hijriUmmulqura => exact hht _
  | hijriDiyanet => exact hht _
  | _ => exact hhij _ _

/-! ### One step

`Moved` is what all of them do: go `k` days on, in the years from the current one on.
-/

structure Moved (ndim : Nat → Nat → Nat) (len : Nat → Nat) (p q : Pos) (k : Nat) : Prop where
  on : q.On ndim len
  dayNo : q.dayNo len = p.dayNo len + k
  year : p.y ≤ q.y

/-- Days and seconds through. -/
def Pos.secs (len : Nat → Nat) (p : Pos) : Nat :=
  ((p.dayNo len * 24 + p.H) * 60 + p.M) * 60 + p.S

theorem Pos.secs_gregorian (p : Pos) : p.secs Gregorian.len
    = ((Gregorian.dayNo p.y p.m p.d * 24 + p.H) * 60 + p.M) * 60 + p.S := rfl

section Step

variable {ndim : Nat → Nat → Nat} {len : Nat → Nat} {p : Pos} {inter : Nat}

theorem wlyStep_spec (hle : ∀ j, len j ≤ lenOf ndim j) (hon : p.On ndim len)
    (hfit : DaysFit ndim len p (7 * inter)) :
    ∃ q, wlyStep ndim inter p = some q ∧ Moved ndim len p q (7 * inter) ∧
      q.H = p.H ∧ q.M = p.M ∧ q.S = p.S := by
  have hsmall := hfit.small
  unfold wlyStep
  rw [u32_of_lt (n := inter * 7) (by omega), u32_of_lt (by omega), Nat.mul_comm inter 7]
  obtain ⟨q, hq, heq, hon', hno, hy, -⟩ := carry_spec id hle hon hfit
    (r := { p with d := p.d + 7 * inter }) rfl (Or.inl rfl)
  exact ⟨q, hq, ⟨hon', hno, hy⟩, by rw [heq], by rw [heq], by rw [heq]⟩

theorem dlyStep_spec (hle : ∀ j, len j ≤ lenOf ndim j) (hon : p.On ndim len)
    (hw : 1 ≤ p.w ∧ p.w ≤ 7) (hfit : DaysFit ndim len p inter) :
    ∃ q, dlyStep ndim inter p = some q ∧ Moved ndim len p q inter ∧
      q.w = wdayFrom p.w inter ∧ q.H = p.H ∧ q.M = p.M ∧ q.S = p.S := by
  have hsmall := hfit.small
  have hwday : (if wdaySun < p.w + inter then (p.w + inter - 1) % 7 + 1 else p.w + inter)
      = wdayFrom p.w inter := by
    unfold wdayFrom wdaySun
    split <;> omega
  unfold dlyStep
  dsimp only
  rw [u32_of_lt (n := p.w + inter) (by omega), u32_of_lt (by omega), hwday]
  obtain ⟨q, hq, heq, hon', hno, hy, -⟩ := carry_spec id hle hon hfit
    (r := { p with d := p.d + inter, w := wdayFrom p.w inter }) rfl (Or.inl rfl)
  exact ⟨q, hq, ⟨hon', hno, hy⟩, by rw [heq], by rw [heq], by rw [heq], by rw [heq]⟩

/-- On the Gregorian calendar only a step of about two months can be carried. -/
theorem days_le_of_fit {k : Nat} (hon : p.On getNdom Gregorian.len)
    (hfit : DaysFit getNdom Gregorian.len p k) : p.d + k ≤ 62 := by
  have hd := hon.day.1
  have hn := hfit.near p.month le_rfl (by unfold Pos.dayNo Months.dayNo; omega)
  have hlen : lenOf getNdom p.month ≤ 31 := by
    rw [show p.month = Gregorian.monthNo p.y p.m from rfl, lenOf_monthNo _ hon.month.1 hon.month.2]
    exact (ndimGreg_range p.y hon.month.1 hon.month.2).2
  unfold Pos.dayNo Months.dayNo at hn
  omega

theorem hlyStep_spec (hon : p.On getNdom Gregorian.len) (hw : 1 ≤ p.w ∧ p.w ≤ 7)
    (hyd : p.yd ≤ 366) (hfit : DaysFit getNdom Gregorian.len p ((p.H + inter) / 24))
    (hyear : p.dayNo Gregorian.len + (p.H + inter) / 24 ≤ before Gregorian.len (12 * (p.y + 1))) :
    ∃ q, hlyStep inter p = some q ∧
      Moved getNdom Gregorian.len p q ((p.H + inter) / 24) ∧
      q.w = wdayFrom p.w ((p.H + inter) / 24) ∧ q.H = (p.H + inter) % 24 ∧ q.M = p.M ∧
      q.S = p.S ∧ q.y = p.y ∧ q.yd = p.yd + (p.H + inter) / 24 ∧ q.maxy = p.maxy := by
  have hk := days_le_of_fit hon hfit
  unfold hlyStep
  dsimp only
  rw [u32_of_lt (n := p.H + inter) (by omega)]
  generalize p.H + inter = h at hk hfit hyear ⊢
  by_cases h24 : 24 ≤ h
  · rw [if_pos h24]
    unfold addDays
    rw [u32_of_lt (n := p.w + h / 24) (by omega), wrapWday_eq hw.1, u32_of_lt (by omega),
      u32_of_lt (by omega)]
    obtain ⟨q, hq, heq, hon', hno, hy, hsame⟩ :=
      carry_spec hlyNewYear gregorian_len_le hon hfit
        (r := { p with d := p.d + h / 24, w := wdayFrom p.w (h / 24), yd := p.yd + h / 24,
                       H := h % 24 }) rfl (Or.inr hyear)
    exact ⟨q, hq, ⟨hon', hno, hy⟩, by rw [heq], by rw [heq], by rw [heq], by rw [heq],
      hsame hyear, by rw [heq], by rw [heq]⟩
  · rw [if_neg h24, Nat.div_eq_of_lt (by omega), Nat.mod_eq_of_lt (by omega)]
    exact ⟨{ p with H := h }, rfl, ⟨⟨hon.month, hon.maxd, hon.day⟩, rfl, le_rfl⟩,
      (wdayFrom_zero hw).symm, rfl, rfl, rfl, rfl, rfl, rfl⟩

/-- Carrying hours into days. -/
theorem carryHours_spec {r : Pos} (hon : p.On getNdom Gregorian.len) (hw : 1 ≤ p.w ∧ p.w ≤ 7)
    (hfit : DaysFit getNdom Gregorian.len p (r.H / 24))
    (hr : r = { p with H := r.H, M := r.M, S := r.S }) :
    ∃ q, carryHours r = some q ∧ Moved getNdom Gregorian.len p q (r.H / 24) ∧
      q.w = wdayFrom p.w (r.H / 24) ∧ q.H = r.H % 24 ∧ q.M = r.M ∧ q.S = r.S := by
  have hk := days_le_of_fit hon hfit
  have hrw : r.w = p.w := by rw [hr]
  have hrd : r.d = p.d := by rw [hr]
  unfold carryHours
  by_cases h24 : 24 ≤ r.H
  · rw [if_pos h24]
    unfold addDays
    rw [u32_of_lt (n := r.w + r.H / 24) (by omega), wrapWday_eq (by omega), u32_of_lt (by omega)]
    obtain ⟨q, hq, heq, hon', hno, hy, -⟩ :=
      carry_spec id gregorian_len_le hon hfit
        (r := { r with d := r.d + r.H / 24, w := wdayFrom r.w (r.H / 24), H := r.H % 24 })
        (by rw [hr]) (Or.inl rfl)
    exact ⟨q, hq, ⟨hon', hno, hy⟩, by rw [heq, hrw], by rw [heq], by rw [heq], by rw [heq]⟩
  · rw [if_neg h24, Nat.div_eq_of_lt (by omega), Nat.mod_eq_of_lt (by omega)]
    refine ⟨r, rfl, ⟨?_, ?_, ?_⟩, ?_, rfl, rfl, rfl⟩
    · rw [hr]; exact ⟨hon.month, hon.maxd, hon.day⟩
    · rw [hr]; rfl
    · rw [hr]
    · rw [hrw, wdayFrom_zero hw]

theorem minlyStep_spec (hon : p.On getNdom Gregorian.len) (hw : 1 ≤ p.w ∧ p.w ≤ 7)
    (hH : p.H < 24) (hfit : DaysFit getNdom Gregorian.len p ((p.H + (p.M + inter) / 60) / 24)) :
    ∃ q, minlyStep inter p = some q ∧
      Moved getNdom Gregorian.len p q ((p.H + (p.M + inter) / 60) / 24) ∧
      q.w = wdayFrom p.w ((p.H + (p.M + inter) / 60) / 24) ∧
      q.H = (p.H + (p.M + inter) / 60) % 24 ∧ q.M = (p.M + inter) % 60 ∧ q.S = p.S := by
  have hk := days_le_of_fit hon hfit
  unfold minlyStep
  dsimp only
  rw [u32_of_lt (n := p.M + inter) (by omega)]
  generalize p.M + inter = m at hk hfit ⊢
  by_cases h60 : 60 ≤ m
  · rw [if_pos h60, u32_of_lt (by omega)]
    exact carryHours_spec (r := { p with H := p.H + m / 60, M := m % 60 }) hon hw hfit rfl
  · have h0 : m / 60 = 0 := Nat.div_eq_of_lt (by omega)
    rw [if_neg h60, h0, Nat.add_zero, Nat.div_eq_of_lt hH, Nat.mod_eq_of_lt hH,
      Nat.mod_eq_of_lt (by omega)]
    exact ⟨{ p with M := m }, rfl, ⟨⟨hon.month, hon.maxd, hon.day⟩, rfl, le_rfl⟩,
      (wdayFrom_zero hw).symm, rfl, rfl, rfl⟩

theorem slyStep_spec (hon : p.On getNdom Gregorian.len) (hw : 1 ≤ p.w ∧ p.w ≤ 7)
    (hH : p.H < 24) (hM : p.M < 60)
    (hfit : DaysFit getNdom Gregorian.len p ((p.H + (p.M + (p.S + inter) / 60) / 60) / 24)) :
    ∃ q, slyStep inter p = some q ∧
      Moved getNdom Gregorian.len p q ((p.H + (p.M + (p.S + inter) / 60) / 60) / 24) ∧
      q.w = wdayFrom p.w ((p.H + (p.M + (p.S + inter) / 60) / 60) / 24) ∧
      q.H = (p.H + (p.M + (p.S + inter) / 60) / 60) % 24 ∧
      q.M = (p.M + (p.S + inter) / 60) % 60 ∧ q.S = (p.S + inter) % 60 := by
  have hk := days_le_of_fit hon hfit
  unfold slyStep
  dsimp only
  rw [u32_of_lt (n := p.S + inter) (by omega)]
  generalize p.S + inter = t at hk hfit ⊢
  rw [u32_of_lt (n := p.M + t / 60) (by omega)]
  by_cases ht : 60 ≤ t
  · rw [if_pos ht]
    generalize p.M + t / 60 = m at hk hfit ⊢
    by_cases hm : 60 ≤ m
    · rw [if_pos hm, u32_of_lt (by omega)]
      exact carryHours_spec (r := { p with H := p.H + m / 60, M := m % 60, S := t % 60 })
        hon hw hfit rfl
    · have h0 : m / 60 = 0 := Nat.div_eq_of_lt (by omega)
      rw [if_neg hm, h0, Nat.add_zero, Nat.div_eq_of_lt hH, Nat.mod_eq_of_lt hH,
        Nat.mod_eq_of_lt (show m < 60 by omega)]
      exact ⟨{ p with M := m, S := t % 60 }, rfl, ⟨⟨hon.month, hon.maxd, hon.day⟩, rfl, le_rfl⟩,
        (wdayFrom_zero hw).symm, rfl, rfl, rfl⟩
  · have h0 : t / 60 = 0 := Nat.div_eq_of_lt (by omega)
    rw [if_neg ht, h0, Nat.add_zero, Nat.div_eq_of_lt hM, Nat.add_zero, Nat.div_eq_of_lt hH,
      Nat.mod_eq_of_lt hH, Nat.mod_eq_of_lt hM, Nat.mod_eq_of_lt (by omega)]
    exact ⟨{ p with S := t }, rfl, ⟨⟨hon.month, hon.maxd, hon.day⟩, rfl, le_rfl⟩,
      (wdayFrom_zero hw).symm, rfl, rfl, rfl⟩

end Step

/-! ### The five loops -/

/-- The unit a loop steps by. -/
inductive Tick where
  | week | day | hour | minute | second
deriving DecidableEq

namespace Tick

def expander : Tick → Instant → Nat → Rrulsp → Expander
  | week => rrulFillWly
  | day => rrulFillDly
  | hour => rrulFillHly
  | minute => rrulFillMinly
  | second => rrulFillSly

def secs : Tick → Nat
  | week => 604800
  | day => 86400
  | hour => 3600
  | minute => 60
  | second => 1

/-- Below a day all is Gregorian. -/
def scale (t : Tick) (rr : Rrulsp) : Scale :=
  match t with
  | week | day => rr.scale
  | _ => .gregorian

/-- The start instant as the loop sees it. -/
def proto (t : Tick) (tgt : Instant) (rr : Rrulsp) : Instant :=
  match t with
  | week | day => protoOf tgt rr
  | _ => tgt

def next (t : Tick) (rr : Rrulsp) : Pos → Option Pos :=
  match t with
  | week => wlyStep (echsScaleNdim rr.scale) rr.inter
  | day => dlyStep (echsScaleNdim rr.scale) rr.inter
  | hour => hlyStep rr.inter
  | minute => minlyStep rr.inter
  | second => slyStep rr.inter

/-- The days a step adds to the date of a position. -/
def days (t : Tick) (n : Nat) (p : Pos) : Nat :=
  match t with
  | week => 7 * n
  | day => n
  | hour => (p.H + n) / 24
  | minute => (p.H + (p.M + n) / 60) / 24
  | second => (p.H + (p.M + (p.S + n) / 60) / 60) / 24

def ndim (t : Tick) (rr : Rrulsp) : Nat → Nat → Nat := echsScaleNdim (t.scale rr)
def len (t : Tick) (rr : Rrulsp) : Nat → Nat := scaleLen (t.scale rr)

/-- A start instant that is a date of the rule's calendar, all-day or with a time. -/
structure ValidStart (t : Tick) (tgt : Instant) (rr : Rrulsp) : Prop where
  year : 1 ≤ (t.proto tgt rr).y
  month : 1 ≤ (t.proto tgt rr).m ∧ (t.proto tgt rr).m ≤ 12
  day : Months.Valid (t.len rr) (Gregorian.monthNo (t.proto tgt rr).y (t.proto tgt rr).m)
    (t.proto tgt rr).d
  time : ((t.proto tgt rr).H < 24 ∨ (t.proto tgt rr).H = echsAllDay) ∧ (t.proto tgt rr).M < 60

/-- The rule is not one that `rrul_fill_dly` hands over to `rrul_fill_wly`. -/
def Own (t : Tick) (rr : Rrulsp) : Prop :=
  t = day → (maskPlain (wdMaskOf rr.dow) && rr.inter == 1) = false

/-- **When a step is right**: its days can be carried and, for hours, the year is one of
the rule of four and does not change. -/
structure Fits (t : Tick) (rr : Rrulsp) (p : Pos) : Prop where
  days : DaysFit (t.ndim rr) (t.len rr) p (t.days rr.inter p)
  year : t = hour → CommonRule p.y ∧
    p.dayNo (t.len rr) + t.days rr.inter p ≤ before (t.len rr) (12 * (p.y + 1))

/-- What a position carries along is true: the date is one of the calendar, the weekday
that of the date, and so are the day of the year and the year's length. -/
structure Tracks (t : Tick) (rr : Rrulsp) (p0 p : Pos) : Prop where
  date : p.On (t.ndim rr) (t.len rr)
  wday : t ≠ week →
    p.w = wdayFrom (echsScaleWday (t.scale rr) p0.y p0.m p0.d)
        (p.dayNo (t.len rr) - p0.dayNo (t.len rr)) ∧
      (t.scale rr = .gregorian → p.w = echsScaleWday (t.scale rr) p.y p.m p.d)
  yday : t = hour → p.yd = p.dayNo (t.len rr) - before (t.len rr) (12 * p.y) ∧
    p.maxy = 365 + Gregorian.leapDay p.y

/-- What holds at every position of a run. -/
structure At (t : Tick) (rr : Rrulsp) (p0 p : Pos) : Prop where
  on : p.On (t.ndim rr) (t.len rr)
  later : p0.dayNo (t.len rr) ≤ p.dayNo (t.len rr)
  year : 1 ≤ p.y
  time : p.H < 24 ∧ p.M < 60
  wday : t ≠ week → p.w = wdayFrom (echsScaleWday (t.scale rr) p0.y p0.m p0.d)
    (p.dayNo (t.len rr) - p0.dayNo (t.len rr))
  yday : t = hour → CommonRule p.y →
    p.yd = p.dayNo (t.len rr) - before (t.len rr) (12 * p.y) ∧
      p.maxy = 365 + Gregorian.leapDay p.y

variable {t : Tick} {rr : Rrulsp} {p0 p q : Pos}

/-- A move that carries the time and the weekday keeps what holds. -/
theorem At.of_moved (h : t.At rr p0 p) (hmv : Moved (t.ndim rr) (t.len rr) p q (t.days rr.inter p))
    (htime : q.H < 24 ∧ q.M < 60) (hw : t ≠ week → q.w = wdayFrom p.w (t.days rr.inter p))
    (hyday : t = hour → q.yd = q.dayNo (t.len rr) - before (t.len rr) (12 * q.y) ∧
      q.maxy = 365 + Gregorian.leapDay q.y) : t.At rr p0 q := by
  have hlater := h.later
  refine ⟨hmv.on, ?_, h.year.trans hmv.year, htime, fun ht => ?_, fun ht _ => hyday ht⟩
  · rw [hmv.dayNo]
    omega
  · rw [hw ht, h.wday ht, wdayFrom_add, hmv.dayNo]
    congr 1
    omega

/-- **One step**: it goes on by INTERVAL of the unit, and what it carries stays true. -/
theorem step_at (h : t.At rr p0 p) (hfit : t.Fits rr p) :
    ∃ q, t.next rr p = some q ∧ t.At rr p0 q ∧
      q.secs (t.len rr) = p.secs (t.len rr) + t.secs * rr.inter ∧
      q.dayNo (t.len rr) = p.dayNo (t.len rr) + t.days rr.inter p ∧ (t = hour → q.y = p.y) := by
  have hw := fun ht => (h.wday ht).symm ▸ wdayFrom_range _ _
  obtain ⟨hH, hM⟩ := h.time
  cases t with
  | week =>
      obtain ⟨q, hq, hmv, hqH, hqM, hqS⟩ := wlyStep_spec (scaleLen_le rr.scale) h.on hfit.days
      have hno : q.dayNo (week.len rr) = p.dayNo (week.len rr) + 7 * rr.inter := hmv.dayNo
      refine ⟨q, hq, h.of_moved hmv (by omega) (by simp) (by simp), ?_, hno, by simp⟩
      unfold Pos.secs
      rw [hno, hqH, hqM, hqS]
      simp only [secs]
      omega
  | day =>
      obtain ⟨q, hq, hmv, hqw, hqH, hqM, hqS⟩ :=
        dlyStep_spec (scaleLen_le rr.scale) h.on (hw (by decide)) hfit.days
      have hno : q.dayNo (day.len rr) = p.dayNo (day.len rr) + rr.inter := hmv.dayNo
      refine ⟨q, hq, h.of_moved hmv (by omega) (fun _ => hqw) (by simp), ?_, hno, by simp⟩
      unfold Pos.secs
      rw [hno, hqH, hqM, hqS]
      simp only [secs]
      omega
  | hour =>
      obtain ⟨hrule, hsame⟩ := hfit.year rfl
      obtain ⟨hyd, hmaxy⟩ := h.yday rfl hrule
      have hmonth : before Gregorian.len (12 * p.y) < p.dayNo Gregorian.len := by
        have hle := Months.before_le Gregorian.len
          (show 12 * p.y ≤ p.month by unfold Pos.month Gregorian.monthNo; omega)
        have := h.on.day.1
        unfold Pos.dayNo Months.dayNo
        omega
      have hlen : before Gregorian.len (12 * (p.y + 1))
          = before Gregorian.len (12 * p.y) + (365 + Gregorian.leapDay p.y) := by
        rw [Nat.mul_succ, Gregorian.before_year_add p.y le_rfl]
        rfl
      have hleap : Gregorian.leapDay p.y ≤ 1 := by
        unfold Gregorian.leapDay
        split <;> omega
      obtain ⟨q, hq, hmv, hqw, hqH, hqM, hqS, hqy, hqyd, hqmaxy⟩ :=
        hlyStep_spec h.on (hw (by decide)) (by
          change p.dayNo Gregorian.len + _ ≤ before Gregorian.len _ at hsame
          change p.yd = p.dayNo Gregorian.len - before Gregorian.len _ at hyd
          omega) hfit.days hsame
      have hno : q.dayNo Gregorian.len = p.dayNo Gregorian.len + (p.H + rr.inter) / 24 := hmv.dayNo
      refine ⟨q, hq, h.of_moved hmv (by omega) (fun _ => hqw) (fun _ => ⟨?_, ?_⟩), ?_, hno,
        fun _ => hqy⟩
      · change q.yd = q.dayNo Gregorian.len - before Gregorian.len _
        change p.yd = p.dayNo Gregorian.len - before Gregorian.len _ at hyd
        rw [hqy, hqyd, hno]
        omega
      · rw [hqmaxy, hqy, hmaxy]
      · change ((q.dayNo Gregorian.len * 24 + q.H) * 60 + q.M) * 60 + q.S
          = ((p.dayNo Gregorian.len * 24 + p.H) * 60 + p.M) * 60 + p.S + 3600 * rr.inter
        rw [hno, hqH, hqM, hqS]
        omega
  | minute =>
      obtain ⟨q, hq, hmv, hqw, hqH, hqM, hqS⟩ :=
        minlyStep_spec h.on (hw (by decide)) hH hfit.days
      have hno : q.dayNo Gregorian.len
          = p.dayNo Gregorian.len + (p.H + (p.M + rr.inter) / 60) / 24 := hmv.dayNo
      refine ⟨q, hq, h.of_moved hmv (by omega) (fun _ => hqw) (by simp), ?_, hno, by simp⟩
      change ((q.dayNo Gregorian.len * 24 + q.H) * 60 + q.M) * 60 + q.S
        = ((p.dayNo Gregorian.len * 24 + p.H) * 60 + p.M) * 60 + p.S + 60 * rr.inter
      rw [hno, hqH, hqM, hqS]
      omega
  | second =>
      obtain ⟨q, hq, hmv, hqw, hqH, hqM, hqS⟩ :=
        slyStep_spec h.on (hw (by decide)) hH hM hfit.days
      have hno : q.dayNo Gregorian.len
          = p.dayNo Gregorian.len + (p.H + (p.M + (p.S + rr.inter) / 60) / 60) / 24 := hmv.dayNo
      refine ⟨q, hq, h.of_moved hmv (by omega) (fun _ => hqw) (by simp), ?_, hno, by simp⟩
      change ((q.dayNo Gregorian.len * 24 + q.H) * 60 + q.M) * 60 + q.S
        = ((p.dayNo Gregorian.len * 24 + p.H) * 60 + p.M) * 60 + p.S + 1 * rr.inter
      rw [hno, hqH, hqM, hqS]
      omega

/-- On the Gregorian scale the weekday that is carried along is that of the date. -/
theorem At.wday_gregorian (h : t.At rr p0 p) (hs : t.scale rr = .gregorian) (ht : t ≠ week)
    (h0 : t.At rr p0 p0) (hyear : p.dayNo Gregorian.len ≤ before Gregorian.len (12 * 1073741823)) :
    p.w = wdayGreg p.y p.m p.d := by
  have hlen : t.len rr = Gregorian.len := by unfold len; rw [hs]; rfl
  have hwday := h.wday ht
  have hlater := h.later
  have hon := h.on
  have hon0 := h0.on
  rw [hlen] at hwday hlater hon hon0
  have small : ∀ r : Pos, r.On (t.ndim rr) Gregorian.len →
      r.dayNo Gregorian.len ≤ before Gregorian.len (12 * 1073741823) →
      r.y < 1073741824 ∧ r.d < 1073741824 := by
    intro r hr hle
    have hd := hr.day
    have hend : Months.dayNo Gregorian.len r.month r.d
        ≤ before Gregorian.len (12 * 1073741823) + Gregorian.len (12 * 1073741823) :=
      le_trans hle (Nat.le_add_right _ _)
    have hm := Months.month_le_of_dayNo_le hd.1 hend
    have hlen31 : Gregorian.len r.month ≤ 31 := (Gregorian.monthDays_range _ _).2
    unfold Pos.month Gregorian.monthNo at hm
    have hd2 := hd.2
    omega
  obtain ⟨hy, hd⟩ := small p hon hyear
  obtain ⟨hy0, hd0⟩ := small p0 hon0 (by omega)
  have hw0 : echsScaleWday (t.scale rr) p0.y p0.m p0.d
      = Gregorian.weekday (p0.dayNo Gregorian.len) := by
    rw [hs]
    exact wdayGreg_eq h0.year hy0 hon0.month.1 hon0.month.2 hd0
  rw [wdayGreg_eq h.year hy hon.month.1 hon.month.2 hd, hwday, hw0]
  change wdayFrom _ _ = Gregorian.weekday (p.dayNo Gregorian.len)
  have hsum : p.dayNo Gregorian.len
      = p0.dayNo Gregorian.len + (p.dayNo Gregorian.len - p0.dayNo Gregorian.len) := by omega
  conv => rhs; rw [hsum]
  rw [Gregorian.weekday_add]
  rfl

/-- The positions of a run keep what holds at the start. -/
theorem orbit_at {nti : Nat} {tgt : Instant} (hnext : (t.expander tgt nti rr).loop.next = t.next rr)
    (h0 : t.At rr p0 p0) (i : Nat)
    (hfit : ∀ j < i, ∀ p, (t.expander tgt nti rr).loop.orbit p0 j = some p → t.Fits rr p) :
    ∃ p, (t.expander tgt nti rr).loop.orbit p0 i = some p ∧ t.At rr p0 p := by
  refine Loop.orbit_run (I := t.At rr p0) (C := t.Fits rr) (fun p h hC => ?_) h0 i hfit
  obtain ⟨q, hq, hat, -⟩ := step_at h hC
  rw [hnext]
  exact ⟨q, hq, hat⟩

/-! ### Where the loops start -/

variable {tgt : Instant} {nti : Nat}

theorem start_week (h : (rrulFillWly tgt nti rr).start = .ok p0) :
    p0 = { y := (protoOf tgt rr).y, m := (protoOf tgt rr).m, d := (protoOf tgt rr).d
           maxd := echsScaleNdim rr.scale (protoOf tgt rr).y (protoOf tgt rr).m } := by
  change (if _ then _ else _) = _ at h
  split at h
  · cases h
  · exact (Except.ok.inj h).symm

/-- `rrul_fill_dly` where it does not hand over to `rrul_fill_wly`. -/
theorem rrulFillDly_eq (tgt : Instant) (nti : Nat)
    (h : (maskPlain (wdMaskOf rr.dow) && rr.inter == 1) = false) :
    rrulFillDly tgt nti rr =
      { loop := dlyLoop (protoOf tgt rr) rr
        room := clampCount rr nti
        start :=
          if countGone rr nti || badDate (protoOf tgt rr) then .error .done
          else .ok
            { y := (protoOf tgt rr).y, m := (protoOf tgt rr).m, d := (protoOf tgt rr).d
              w := echsScaleWday rr.scale (protoOf tgt rr).y (protoOf tgt rr).m (protoOf tgt rr).d
              maxd := echsScaleNdim rr.scale (protoOf tgt rr).y (protoOf tgt rr).m } } := by
  unfold rrulFillDly
  dsimp only
  rw [Bool.and_assoc, h, Bool.and_false, if_neg (by decide)]

theorem rrulFillDly_own (tgt : Instant) (nti : Nat)
    (h : (maskPlain (wdMaskOf rr.dow) && rr.inter == 1) = false) :
    (rrulFillDly tgt nti rr).loop = dlyLoop (protoOf tgt rr) rr ∧
      ∀ p0, (rrulFillDly tgt nti rr).start = .ok p0 →
        p0 = { y := (protoOf tgt rr).y, m := (protoOf tgt rr).m, d := (protoOf tgt rr).d
               w := echsScaleWday rr.scale (protoOf tgt rr).y (protoOf tgt rr).m
                 (protoOf tgt rr).d
               maxd := echsScaleNdim rr.scale (protoOf tgt rr).y (protoOf tgt rr).m } := by
  rw [rrulFillDly_eq tgt nti h]
  refine ⟨rfl, fun p0 h => ?_⟩
  dsimp only at h
  split at h
  · cases h
  · exact (Except.ok.inj h).symm

/-- The start of the loops below a day. -/
theorem start_time {start : Except FillLoop.Stop Pos} {b : Bool} {i : Pos}
    (h : start = if b then .error .done else .ok i) (h0 : start = .ok p0) : p0 = i := by
  rw [h] at h0
  split at h0
  · cases h0
  · exact (Except.ok.inj h0).symm

theorem at_timePos (hvalid : ValidStart .hour tgt rr) {H M S : Nat} (hH : H < 24) (hM : M < 60)
    (ht : t.scale rr = .gregorian) :
    t.At rr { timePos tgt with H := H, M := M, S := S }
      { timePos tgt with H := H, M := M, S := S } := by
  have hndim : t.ndim rr = ndimGreg := by unfold ndim; rw [ht]; rfl
  have hlen : t.len rr = Gregorian.len := by unfold len; rw [ht]; rfl
  obtain ⟨hy, hm, hd, -⟩ := hvalid
  refine ⟨⟨hm, ?_, ?_⟩, le_rfl, hy, ⟨hH, hM⟩, fun _ => ?_, fun _ hrule => ⟨?_, ?_⟩⟩
  · rw [hndim]; rfl
  · rw [hlen]; exact hd
  · rw [Nat.sub_self, ht, wdayFrom_zero (echsScaleWday_range _ _ _ _)]
    rfl
  · rw [hlen]
    exact ymdGetYd_eq hrule hm.1 hm.2 tgt.d
  · change yearDays tgt.y = 365 + Gregorian.leapDay tgt.y
    rw [leapDay_of_commonRule (y := tgt.y) hrule]
    unfold yearDays
    split <;> rfl

theorem start_at (hstart : (t.expander tgt nti rr).start = .ok p0) (hown : t.Own rr)
    (hvalid : t.ValidStart tgt rr) : t.At rr p0 p0 ∧ (t.expander tgt nti rr).loop.next = t.next rr := by
  have hH : (if tgt.H = echsAllDay then 0 else tgt.H) < 24 ∨ t = .week ∨ t = .day := by
    cases t
    · simp
    · simp
    all_goals
      refine Or.inl ?_
      have := hvalid.time.1
      split
      · omega
      · rename_i h
        exact this.resolve_right h
  cases t with
  | week =>
      rw [start_week hstart]
      refine ⟨⟨⟨hvalid.month, rfl, hvalid.day⟩, le_rfl, hvalid.year, ⟨Nat.zero_lt_succ _, Nat.zero_lt_succ _⟩,
        by simp, by simp⟩, rfl⟩
  | day =>
      obtain ⟨hloop, hs⟩ := rrulFillDly_own tgt nti (hown rfl)
      rw [hs p0 hstart]
      refine ⟨⟨⟨hvalid.month, rfl, hvalid.day⟩, le_rfl, hvalid.year, ⟨Nat.zero_lt_succ _, Nat.zero_lt_succ _⟩,
        fun _ => ?_, by simp⟩, ?_⟩
      · rw [Nat.sub_self, wdayFrom_zero (echsScaleWday_range _ _ _ _)]
        rfl
      · change (rrulFillDly tgt nti rr).loop.next = _
        rw [hloop]
        rfl
  | hour =>
      rw [start_time rfl hstart]
      exact ⟨at_timePos hvalid (hH.resolve_right (by simp)) hvalid.time.2 rfl, rfl⟩
  | minute =>
      have hM : (if tgt.H = echsAllDay then 0 else tgt.M) < 60 := by
        have := hvalid.time.2
        split
        · omega
        · exact this
      rw [start_time rfl hstart]
      exact ⟨at_timePos ⟨hvalid.year, hvalid.month, hvalid.day, hvalid.time⟩
        (hH.resolve_right (by simp)) hM rfl, rfl⟩
  | second =>
      have hM : (if tgt.H = echsAllDay then 0 else tgt.M) < 60 := by
        have := hvalid.time.2
        split
        · omega
        · exact this
      rw [start_time rfl hstart]
      exact ⟨at_timePos ⟨hvalid.year, hvalid.month, hvalid.day, hvalid.time⟩
        (hH.resolve_right (by simp)) hM rfl, rfl⟩

/-! ### Whole runs -/

/-- **The bases a loop visits are INTERVAL units apart**, and what it carries along is
true of each, as long as every step so far is one that is right. -/
theorem bases_exact (hstart : (t.expander tgt nti rr).start = .ok p0) (hown : t.Own rr)
    (hvalid : t.ValidStart tgt rr) (i : Nat)
    (hfit : ∀ j ≤ i, ∀ p, (t.expander tgt nti rr).loop.orbit p0 j = some p → t.Fits rr p) :
    ∃ p q, (t.expander tgt nti rr).loop.orbit p0 i = some p ∧
      (t.expander tgt nti rr).loop.orbit p0 (i + 1) = some q ∧
      q.secs (t.len rr) = p.secs (t.len rr) + t.secs * rr.inter ∧ t.Tracks rr p0 q := by
  obtain ⟨h0, hnext⟩ := start_at hstart hown hvalid
  obtain ⟨p, hp, hat⟩ := orbit_at hnext h0 i fun j hj => hfit j (by omega)
  have hfitp := hfit i le_rfl p hp
  obtain ⟨q, hq, hatq, hsecs, hno, hyear⟩ := step_at hat hfitp
  refine ⟨p, q, hp, ?_, hsecs, ⟨hatq.on, fun ht => ⟨hatq.wday ht, fun hs => ?_⟩, fun ht => ?_⟩⟩
  · rw [Loop.orbit_succ, hp, hnext]
    exact hq
  · rw [hs]
    refine hatq.wday_gregorian hs ht h0 ?_
    have hlen : t.len rr = Gregorian.len := by unfold len; rw [hs]; rfl
    rw [← hlen, hno]
    exact hfitp.days.year
  · refine hatq.yday ht ?_
    rw [hyear ht]
    exact (hfitp.year ht).1

/-- A daily rule at work. -/
theorem bases_exact_daily :
    ∃ p q, (rrulFillDly (.pack 2000 1 31 0 0 0 0) 64 { freq := .daily }).loop.orbit
        { y := 2000, m := 1, d := 31, w := 1, maxd := 31 } 0 = some p ∧
      (rrulFillDly (.pack 2000 1 31 0 0 0 0) 64 { freq := .daily }).loop.orbit
        { y := 2000, m := 1, d := 31, w := 1, maxd := 31 } 1 = some q ∧
      q.secs (day.len { freq := .daily }) = p.secs (day.len { freq := .daily }) + 86400 * 1 ∧
      day.Tracks { freq := .daily } { y := 2000, m := 1, d := 31, w := 1, maxd := 31 } q := by
  have hvalid : Months.Valid Gregorian.len (Gregorian.monthNo 2000 1) 31 := by
    constructor <;> decide
  have hstart : (day.expander (.pack 2000 1 31 0 0 0 0) 64 { freq := .daily }).start
      = .ok { y := 2000, m := 1, d := 31, w := 1, maxd := 31 } := by decide
  refine bases_exact hstart (fun _ => by decide)
    ⟨by decide, by decide, hvalid, by decide⟩ 0 ?_
  intro j hj p hp
  obtain rfl : j = 0 := by omega
  cases hp
  exact ⟨daysFit_of_commonRule ⟨by decide, rfl, hvalid⟩ (by decide) (by decide) (by decide)
    (by decide), fun h => nomatch h⟩

/-- The 8th of February is not a hundred days on from New Year. -/
theorem secs_feb_ne (y w w' maxd maxd' : Nat) :
    ({ y := y, m := 2, d := 8, w := w, maxd := maxd } : Pos).secs Gregorian.len
      ≠ ({ y := y, m := 1, d := 1, w := w', maxd := maxd' } : Pos).secs Gregorian.len
        + 86400 * 100 := by
  have h2 := Gregorian.dayNo_eq y (m := 2) (by decide) (by decide) 8
  have h1 := Gregorian.dayNo_eq y (m := 1) (by decide) (by decide) 1
  simp only [Gregorian.yearDaysBefore, Nat.reduceSub] at h1 h2
  rw [Pos.secs_gregorian, Pos.secs_gregorian]
  dsimp only
  omega

/-- A step of a hundred days leads from New Year to the 8th of February. -/
theorem dly_loses_months :
    ∃ p q, (rrulFillDly (.pack 2000 1 1 0 0 0 echsAllSec) 64
        (snarfRrule "FREQ=DAILY;INTERVAL=100".toList)).start = .ok p ∧
      (rrulFillDly (.pack 2000 1 1 0 0 0 echsAllSec) 64
        (snarfRrule "FREQ=DAILY;INTERVAL=100".toList)).loop.orbit p 1 = some q ∧
      q.secs Gregorian.len ≠ p.secs Gregorian.len + 86400 * 100 :=
  ⟨{ y := 2000, m := 1, d := 1, w := 6, maxd := 31 },
    { y := 2000, m := 2, d := 8, w := 1, maxd := 29 }, by decide, by decide,
    secs_feb_ne 2000 1 6 29 31⟩

end Tick

end Echse
