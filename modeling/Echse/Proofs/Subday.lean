/-
What hourly, minutely and secondly rules emit.

These loops count units of a day, from the start's on, and let a unit pass if the rule's parts
list its day and its time.  Only hourly rules know BYYEARDAY, and what they compare it with is the
day of the year they carry along.
-/
import Echse.Proofs.Daily
import Echse.Proofs.YearDays

namespace Echse

open Months (before later)
open FillLoop (Loop Fills)

/-! ### Units -/

namespace Tick

/-- The units of a day. -/
def perDay (t : Tick) : Nat := 86400 / t.secs

/-- The loops below a day. -/
def Below (t : Tick) : Prop := t = hour ∨ t = minute ∨ t = second

/-- The unit of the start, from midnight on. -/
def unit0 (t : Tick) (i : Instant) : Nat :=
  if i.H = echsAllDay then 0 else ((i.H * 60 + i.M) * 60 + i.S) / t.secs

/-- The `i`-th unit from the start on. -/
def unit (t : Tick) (rr : Rrulsp) (proto : Instant) (i : Nat) : Nat := t.unit0 proto + i * rr.inter

/-- The day it is on, counted from the start's. -/
def dayOf (t : Tick) (rr : Rrulsp) (proto : Instant) (i : Nat) : Nat := t.unit rr proto i / t.perDay

/-- Its first second, counted from midnight. -/
def secOf (t : Tick) (rr : Rrulsp) (proto : Instant) (i : Nat) : Nat :=
  t.unit rr proto i % t.perDay * t.secs

/-- The instants of a rule in the unit that begins at second `s` of a day. -/
def timesAt (t : Tick) (e : Enum) (ms : Nat) (date : Date) (s : Nat) : List Instant :=
  match t with
  | minute => e.times1 date.y date.m date.d (s / 3600) (s / 60 % 60) ms
  | second => [.pack date.y date.m date.d (s / 3600) (s / 60 % 60) (s % 60) ms]
  | _ => e.times2 date.y date.m date.d (s / 3600) ms

end Tick

/-- A part lists a value, or none. -/
def ListedIn (xs : List Nat) (x : Nat) : Prop := xs = [] ∨ x ∈ xs

instance (xs : List Nat) (x : Nat) : Decidable (ListedIn xs x) := inferInstanceAs (Decidable (_ ∨ _))

/-- The parts of a rule that single out times down to a loop's unit. -/
structure Tick.TimeListed (t : Tick) (rr : Rrulsp) (s : Nat) : Prop where
  H : ListedIn (bui31List rr.H) (s / 3600)
  M : t ≠ .hour → ListedIn (bui63List rr.M) (s / 60 % 60)
  S : t = .second → ListedIn (bui63List rr.S) (s % 60)

instance (t : Tick) (rr : Rrulsp) (s : Nat) : Decidable (t.TimeListed rr s) :=
  decidable_of_iff (ListedIn (bui31List rr.H) (s / 3600) ∧
      (t ≠ .hour → ListedIn (bui63List rr.M) (s / 60 % 60)) ∧
        (t = .second → ListedIn (bui63List rr.S) (s % 60)))
    ⟨fun ⟨h1, h2, h3⟩ => ⟨h1, h2, h3⟩, fun ⟨h1, h2, h3⟩ => ⟨h1, h2, h3⟩⟩

/-- BYYEARDAY lists the `yd`-th day of a year of `len` days, or none. -/
def YearDayListed (doy : Bitints) (yd len : Nat) : Prop :=
  bi383List doy = [] ∨ (yd : Int) ∈ bi383List doy ∨ (yd : Int) - len - 1 ∈ bi383List doy

instance (doy : Bitints) (yd len : Nat) : Decidable (YearDayListed doy yd len) :=
  inferInstanceAs (Decidable (_ ∨ _ ∨ _))

/-- The day of the year of a date. -/
def Date.yearDay (date : Date) : Nat :=
  Gregorian.yearDaysBefore (Gregorian.leapDay date.y) (date.m - 1) + date.d

/-- The parts of a rule list the `i`-th unit from the start on. -/
structure UnitListed (t : Tick) (rr : Rrulsp) (proto : Instant) (i : Nat) : Prop where
  day : DayListed rr (weekdayAfter rr.scale proto (t.dayOf rr proto i))
    (dateOn Gregorian.len proto (t.dayOf rr proto i)).m
    (dateOn Gregorian.len proto (t.dayOf rr proto i)).d
    (Gregorian.len (later Gregorian.len proto.monthDay (t.dayOf rr proto i)).1)
  time : t.TimeListed rr (t.secOf rr proto i)
  yearDay : t = .hour → YearDayListed rr.doy
    (dateOn Gregorian.len proto (t.dayOf rr proto i)).yearDay
    (365 + Gregorian.leapDay (dateOn Gregorian.len proto (t.dayOf rr proto i)).y)

instance (t : Tick) (rr : Rrulsp) (proto : Instant) (i : Nat) : Decidable (UnitListed t rr proto i) :=
  decidable_of_iff (DayListed .. ∧ t.TimeListed .. ∧ (t = .hour → YearDayListed ..))
    ⟨fun ⟨h1, h2, h3⟩ => ⟨h1, h2, h3⟩, fun ⟨h1, h2, h3⟩ => ⟨h1, h2, h3⟩⟩

/-- The times of that unit. -/
def unitTimes (t : Tick) (rr : Rrulsp) (proto : Instant) (i : Nat) : List Instant :=
  t.timesAt (makeEnum proto rr) proto.ms (dateOn Gregorian.len proto (t.dayOf rr proto i))
    (t.secOf rr proto i)

/-- What a rule means for it. -/
def subdayItems (t : Tick) (rr : Rrulsp) (proto : Instant) (i : Nat) : List Instant :=
  if UnitListed t rr proto i then notBefore proto (unitTimes t rr proto i) else []

/-- **What a rule below a day means**: the times of the units that are listed, for the first `n`
of every INTERVAL-th unit. -/
def subdayListing (t : Tick) (rr : Rrulsp) (proto : Instant) (n : Nat) : List Instant :=
  Loop.listing (subdayItems t rr proto) rr.late n

/-- The loop's test of BYYEARDAY is right for a day: it is made with a day of the year that is
ahead by the years since the start, and compares it with `maxy - (t + 1)` for a negative `t`. -/
def YearDayRight (rr : Rrulsp) (proto : Instant) (n : Nat) : Prop :=
  let date := dateOn Gregorian.len proto n
  doyPasses rr.doy { yd := date.yearDay + (date.y - proto.y), maxy := yearDays date.y } = true ↔
    YearDayListed rr.doy date.yearDay (365 + Gregorian.leapDay date.y)

/-- **It is right in the year of the start** as long as no day but the last one is counted from
the end of the year. -/
theorem yearDayRight_of_first {rr : Rrulsp} {proto : Instant} {n : Nat}
    (hyear : (dateOn Gregorian.len proto n).y = proto.y) (hrule : CommonRule proto.y)
    (hlen : (dateOn Gregorian.len proto n).yearDay ≤ 365 + Gregorian.leapDay proto.y)
    (hbits : bi383HasBits rr.doy = false ↔ bi383List rr.doy = [])
    (hdoy : ∀ t ∈ bi383List rr.doy, 0 < t ∨ t = -1) : YearDayRight rr proto n := by
  have hmaxy : yearDays proto.y = 365 + Gregorian.leapDay proto.y := by
    rw [leapDay_of_commonRule hrule]
    unfold yearDays
    split <;> rfl
  have h366 : 365 + Gregorian.leapDay proto.y ≤ 366 := by
    unfold Gregorian.leapDay
    split <;> omega
  unfold YearDayRight doyPasses YearDayListed
  dsimp only
  rw [hyear, Nat.sub_self, Nat.add_zero, hmaxy, Bool.or_eq_true, Bool.not_eq_true', hbits,
    List.any_eq_true]
  generalize (dateOn Gregorian.len proto n).yearDay = yd at *
  generalize 365 + Gregorian.leapDay proto.y = len at *
  refine or_congr_right ⟨?_, ?_⟩
  · rintro ⟨t, ht, hmatch⟩
    have hmatch' := of_decide_eq_true hmatch
    rcases hdoy t ht with hpos | rfl
    · rcases hmatch' with ⟨-, heq⟩ | ⟨hneg, -⟩
      · exact Or.inl (by rwa [← heq, Int.toNat_of_nonneg hpos.le])
      · omega
    · rcases hmatch' with ⟨hpos, -⟩ | ⟨-, heq⟩
      · omega
      · rw [show (len : Int) - (-1 + 1) = (len : Int) by omega, u32OfInt_ofNat (by omega)] at heq
        exact Or.inr (by rwa [← heq, Int.sub_self, Int.zero_sub])
  · rintro (hmem | hmem)
    · refine ⟨yd, hmem, decide_eq_true (Or.inl ⟨?_, Int.toNat_natCast yd⟩)⟩
      rcases hdoy _ hmem with hpos | hneg <;> omega
    · have hlast : (yd : Int) - len - 1 = -1 := by
        rcases hdoy _ hmem with hpos | hneg <;> omega
      refine ⟨_, hmem, decide_eq_true (Or.inr ⟨by omega, ?_⟩)⟩
      rw [hlast, show (len : Int) - (-1 + 1) = (len : Int) by omega, u32OfInt_ofNat (by omega)]
      omega

/-! ### The clock -/

section Clock

variable {t : Tick} {rr : Rrulsp} {proto : Instant}

/-- What a position carries along at the `i`-th unit. -/
structure ClockAt (t : Tick) (rr : Rrulsp) (proto : Instant) (i : Nat) (p : Pos) : Prop where
  H : p.H = t.secOf rr proto i / 3600
  M : t ≠ .hour → p.M = t.secOf rr proto i / 60 % 60
  S : t = .second → p.S = t.secOf rr proto i % 60
  w : p.w = wdayFrom (wdayGreg proto.y proto.m proto.d) (t.dayOf rr proto i)
  yd : t = .hour → DayCarried proto.y p ∧ proto.y ≤ p.y

theorem unit_succ (t : Tick) (rr : Rrulsp) (proto : Instant) (i : Nat) :
    t.unit rr proto (i + 1) = t.unit rr proto i + rr.inter := by
  unfold Tick.unit
  rw [Nat.succ_mul, Nat.add_assoc]

theorem clock_hour (rr : Rrulsp) (proto : Instant) (i : Nat) : Tick.hour.dayOf rr proto i = Tick.hour.unit rr proto i / 24 ∧
    Tick.hour.secOf rr proto i = Tick.hour.unit rr proto i % 24 * 3600 := ⟨rfl, rfl⟩

theorem clock_minute (rr : Rrulsp) (proto : Instant) (i : Nat) : Tick.minute.dayOf rr proto i = Tick.minute.unit rr proto i / 1440 ∧
    Tick.minute.secOf rr proto i = Tick.minute.unit rr proto i % 1440 * 60 := ⟨rfl, rfl⟩

theorem clock_second (rr : Rrulsp) (proto : Instant) (i : Nat) : Tick.second.dayOf rr proto i = Tick.second.unit rr proto i / 86400 ∧
    Tick.second.secOf rr proto i = Tick.second.unit rr proto i % 86400 * 1 := ⟨rfl, rfl⟩

theorem dayOf_succ (proto : Instant) (ht : t.Below) (hinter : rr.inter * t.secs < 28 * 86400) (i : Nat) :
    t.dayOf rr proto i ≤ t.dayOf rr proto (i + 1) ∧
      t.dayOf rr proto (i + 1) ≤ t.dayOf rr proto i + 28 := by
  have hunit := unit_succ t rr proto i
  rcases ht with rfl | rfl | rfl
  · rw [(clock_hour _ _ i).1, (clock_hour _ _ (i + 1)).1, hunit]
    change rr.inter * 3600 < _ at hinter
    omega
  · rw [(clock_minute _ _ i).1, (clock_minute _ _ (i + 1)).1, hunit]
    change rr.inter * 60 < _ at hinter
    omega
  · rw [(clock_second _ _ i).1, (clock_second _ _ (i + 1)).1, hunit]
    change rr.inter * 1 < _ at hinter
    omega

/-- A digit that is added to carries over what is missing to the sum. -/
theorem div_carry {n : Nat} (hn : 0 < n) (u v : Nat) : u / n + (u % n + v) / n = (u + v) / n := by
  have hu : u + v = u % n + v + n * (u / n) := by rw [Nat.add_right_comm, Nat.mod_add_div]
  rw [hu, Nat.add_mul_div_left _ _ hn, Nat.add_comm]

/-- The same with the digit above. -/
theorem digit_carry {n : Nat} (hn : 0 < n) (u v : Nat) :
    (u % n + v) / n = (u + v) / n - u / n ∧ (u % n + v) % n = (u + v) % n :=
  ⟨by rw [← div_carry hn u v, Nat.add_sub_cancel_left], Nat.mod_add_mod u n v⟩

theorem minute_digits (u : Nat) :
    u % 1440 * 60 / 3600 = u / 60 % 24 ∧ u % 1440 * 60 / 60 % 60 = u % 60 := by omega

theorem second_digits (u : Nat) : u % 86400 / 3600 = u / 60 / 60 % 24 ∧
    u % 86400 / 60 % 60 = u / 60 % 60 ∧ u % 86400 % 60 = u % 60 := by omega

/-- **One step of the clock.** -/
theorem clock_step (ht : t.Below) {i : Nat} {p : Pos} (hon : p.On getNdom Gregorian.len)
    (h : ClockAt t rr proto i p) {y1 : Nat} (hy1 : y1 < 65536 - 366)
    (hrule : ∀ y, proto.y ≤ y → y < y1 → CommonRule y)
    (hmono : t.dayOf rr proto i ≤ t.dayOf rr proto (i + 1))
    (hlast : p.dayNo Gregorian.len + (t.dayOf rr proto (i + 1) - t.dayOf rr proto i)
      ≤ before Gregorian.len (12 * (y1 + 1)))
    (hfit : DaysFit getNdom Gregorian.len p (t.dayOf rr proto (i + 1) - t.dayOf rr proto i)) :
    ∃ q, t.next rr p = some q ∧
      Moved getNdom Gregorian.len p q (t.dayOf rr proto (i + 1) - t.dayOf rr proto i) ∧
      ClockAt t rr proto (i + 1) q := by
  have hw : 1 ≤ p.w ∧ p.w ≤ 7 := h.w ▸ wdayFrom_range _ _
  have hunit := unit_succ t rr proto i
  have hwday : wdayFrom p.w (t.dayOf rr proto (i + 1) - t.dayOf rr proto i) =
      wdayFrom (wdayGreg proto.y proto.m proto.d) (t.dayOf rr proto (i + 1)) := by
    rw [h.w, wdayFrom_add, Nat.add_sub_cancel' hmono]
  rcases ht with rfl | rfl | rfl
  · have hH := h.H
    obtain ⟨hday, hsec⟩ := clock_hour rr proto i
    obtain ⟨hday', hsec'⟩ := clock_hour rr proto (i + 1)
    rw [hsec, Nat.mul_div_cancel _ (by decide)] at hH
    obtain ⟨hover, hleft⟩ := digit_carry (show 0 < 24 by decide) (Tick.hour.unit rr proto i) rr.inter
    rw [← hH, ← hunit] at hover hleft
    have hdays : (p.H + rr.inter) / 24 =
        Tick.hour.dayOf rr proto (i + 1) - Tick.hour.dayOf rr proto i := by
      rw [hover, hday, hday']
    have hhour : (p.H + rr.inter) % 24 = Tick.hour.secOf rr proto (i + 1) / 3600 := by
      rw [hsec', Nat.mul_div_cancel _ (by decide), hleft]
    rw [← hdays] at hfit hlast hwday ⊢
    obtain ⟨q, hq, hmv, hqw, hqH, hyd⟩ :=
      hlyStep_carried hon hw (h.yd rfl).2 (h.yd rfl).1 hfit hy1 hrule hlast
    exact ⟨q, hq, hmv, hqH.trans hhour, by simp, by simp, hqw.trans hwday,
      fun _ => ⟨hyd, (h.yd rfl).2.trans hmv.year⟩⟩
  · have hH := h.H
    have hM := h.M (by decide)
    obtain ⟨hday, hsec⟩ := clock_minute rr proto i
    obtain ⟨hday', hsec'⟩ := clock_minute rr proto (i + 1)
    obtain ⟨hHu, hMu⟩ := minute_digits (Tick.minute.unit rr proto i)
    obtain ⟨hHu', hMu'⟩ := minute_digits (Tick.minute.unit rr proto (i + 1))
    rw [hsec, hHu] at hH
    rw [hsec, hMu] at hM
    -- the minutes carry into the hours, and these into the days
    have hmins := div_carry (show 0 < 60 by decide) (Tick.minute.unit rr proto i) rr.inter
    obtain ⟨hover, hleft⟩ := digit_carry (show 0 < 24 by decide) (Tick.minute.unit rr proto i / 60)
      ((Tick.minute.unit rr proto i % 60 + rr.inter) / 60)
    rw [hmins, ← hunit, ← hH, ← hM] at hover hleft
    have hdays : (p.H + (p.M + rr.inter) / 60) / 24 =
        Tick.minute.dayOf rr proto (i + 1) - Tick.minute.dayOf rr proto i := by
      rw [hover, hday, hday', Nat.div_div_eq_div_mul, Nat.div_div_eq_div_mul]
    have hhour : (p.H + (p.M + rr.inter) / 60) % 24 = Tick.minute.secOf rr proto (i + 1) / 3600 := by
      rw [hleft, hsec', hHu']
    have hmin : (p.M + rr.inter) % 60 = Tick.minute.secOf rr proto (i + 1) / 60 % 60 := by
      rw [hsec', hMu', hM, hunit, Nat.mod_add_mod]
    have hp : p.H < 24 := hH ▸ Nat.mod_lt _ (by decide)
    rw [← hdays] at hfit hwday ⊢
    obtain ⟨q, hq, hmv, hqw, hqH, hqM, -⟩ := minlyStep_spec hon hw hp hfit
    exact ⟨q, hq, hmv, hqH.trans hhour, fun _ => hqM.trans hmin, by simp, hqw.trans hwday, by simp⟩
  · have hH := h.H
    have hM := h.M (by decide)
    have hS := h.S rfl
    obtain ⟨hday, hsec⟩ := clock_second rr proto i
    obtain ⟨hday', hsec'⟩ := clock_second rr proto (i + 1)
    rw [hsec, Nat.mul_one] at hH hM hS
    rw [Nat.mul_one] at hsec'
    obtain ⟨hHu, hMu, hSu⟩ := second_digits (Tick.second.unit rr proto i)
    obtain ⟨hHu', hMu', hSu'⟩ := second_digits (Tick.second.unit rr proto (i + 1))
    rw [hHu] at hH
    rw [hMu] at hM
    rw [hSu] at hS
    -- the seconds carry into the minutes, these into the hours, and these into the days
    have hsecs := div_carry (show 0 < 60 by decide) (Tick.second.unit rr proto i) rr.inter
    have hmins := div_carry (show 0 < 60 by decide) (Tick.second.unit rr proto i / 60)
      ((Tick.second.unit rr proto i % 60 + rr.inter) / 60)
    have hminl := Nat.mod_add_mod (Tick.second.unit rr proto i / 60) 60
      ((Tick.second.unit rr proto i % 60 + rr.inter) / 60)
    obtain ⟨hover, hleft⟩ := digit_carry (show 0 < 24 by decide)
      (Tick.second.unit rr proto i / 60 / 60) ((Tick.second.unit rr proto i / 60 % 60 +
        (Tick.second.unit rr proto i % 60 + rr.inter) / 60) / 60)
    rw [hmins, hsecs, ← hunit, ← hH, ← hM, ← hS] at hover hleft
    rw [hsecs, ← hunit, ← hM, ← hS] at hminl
    have hdays : (p.H + (p.M + (p.S + rr.inter) / 60) / 60) / 24 =
        Tick.second.dayOf rr proto (i + 1) - Tick.second.dayOf rr proto i := by
      rw [hover, hday, hday', Nat.div_div_eq_div_mul, Nat.div_div_eq_div_mul,
        Nat.div_div_eq_div_mul, Nat.div_div_eq_div_mul]
    have hhour : (p.H + (p.M + (p.S + rr.inter) / 60) / 60) % 24 =
        Tick.second.secOf rr proto (i + 1) / 3600 := by
      rw [hleft, hsec', hHu']
    have hmin : (p.M + (p.S + rr.inter) / 60) % 60 =
        Tick.second.secOf rr proto (i + 1) / 60 % 60 := by
      rw [hminl, hsec', hMu']
    have hsec60 : (p.S + rr.inter) % 60 = Tick.second.secOf rr proto (i + 1) % 60 := by
      rw [hsec', hSu', hS, hunit, Nat.mod_add_mod]
    have hp : p.H < 24 := hH ▸ Nat.mod_lt _ (by decide)
    have hp' : p.M < 60 := hM ▸ Nat.mod_lt _ (by decide)
    rw [← hdays] at hfit hwday ⊢
    obtain ⟨q, hq, hmv, hqw, hqH, hqM, hqS⟩ := slyStep_spec hon hw hp hp' hfit
    exact ⟨q, hq, hmv, hqH.trans hhour, fun _ => hqM.trans hmin, fun _ => hqS.trans hsec60,
      hqw.trans hwday, by simp⟩

theorem ClockAt.time_lt (ht : t.Below) {i : Nat} {p : Pos} (h : ClockAt t rr proto i p) :
    p.H < 24 ∧ (t ≠ .hour → p.M < 60) ∧ (t = .second → p.S < 60) := by
  have hH := h.H
  refine ⟨?_, fun hne => by rw [h.M hne]; omega, fun hs => by rw [h.S hs]; omega⟩
  rcases ht with rfl | rfl | rfl
  · rw [(clock_hour _ _ i).2] at hH
    omega
  · rw [(clock_minute _ _ i).2] at hH
    omega
  · rw [(clock_second _ _ i).2] at hH
    omega

/-- The loop of a tick below a day. -/
def Tick.loop (t : Tick) (proto : Instant) (rr : Rrulsp) : Loop Pos Instant Slot :=
  match t with
  | .minute => minlyLoop proto rr
  | .second => slyLoop proto rr
  | _ => hlyLoop proto rr

/-- What `groups` looks at in a unit. -/
def subdayGroups (t : Tick) (rr : Rrulsp) (proto : Instant) (i : Nat) : List (List Instant) :=
  if UnitListed t rr proto i then [unitTimes t rr proto i] else []

theorem subdayItems_eq (t : Tick) (rr : Rrulsp) (proto : Instant) (i : Nat) :
    subdayItems t rr proto i = notBefore proto (subdayGroups t rr proto i).flatten := by
  unfold subdayItems subdayGroups
  split
  · rw [List.flatten_singleton]
  · rfl

/-- **The groups of a position are those of its unit**, where the test of BYYEARDAY is right. -/
theorem subday_groups (ht : t.Below) (hscale : rr.scale = .gregorian) {p0 p : Pos} {i : Nat}
    (hs : p0.IsStart proto) (hy : 1 ≤ proto.y) (h0 : p0.On getNdom Gregorian.len)
    (hon : p.On getNdom Gregorian.len)
    (hno : p.dayNo Gregorian.len = p0.dayNo Gregorian.len + t.dayOf rr proto i)
    (h : ClockAt t rr proto i p) (hdoy : t = .hour → YearDayRight rr proto (t.dayOf rr proto i))
    {last : Nat} (hcal : LengthsTo getNdom Gregorian.len (DaysFromStart rr) p0.month last)
    (hlast : p.dayNo Gregorian.len ≤ last) :
    (t.loop proto rr).groups p = (subdayGroups t rr proto i).map some := by
  have hndim : echsScaleNdim rr.scale = getNdom := by
    rw [hscale]
    rfl
  have hdate := (dateOn_eq hs h0 hon hno hcal hlast).2
  have hpass := dayPasses_at rr (n := t.dayOf rr proto i) hs hy
    (hndim ▸ h0) (hndim ▸ hon) (by rw [hndim]; exact gregorian_len_le) hno
    (by rw [hscale]; exact h.w) (by rw [hndim]; exact hcal) hlast
  have hH : maskHas (timeMaskOf (bui31List rr.H)) p.H = true ↔
      ListedIn (bui31List rr.H) (t.secOf rr proto i / 3600) := by
    rw [← h.H]
    exact testBit_timeMaskOf _ (by have := (h.time_lt ht).1; omega)
  have hM : t ≠ .hour → (maskHas (timeMaskOf (bui63List rr.M)) p.M = true ↔
      ListedIn (bui63List rr.M) (t.secOf rr proto i / 60 % 60)) := by
    intro hne
    rw [← h.M hne]
    exact testBit_timeMaskOf _ (by have := (h.time_lt ht).2.1 hne; omega)
  have hS : t = .second → (maskHas (timeMaskOf (bui63List rr.S)) p.S = true ↔
      ListedIn (bui63List rr.S) (t.secOf rr proto i % 60)) := by
    intro he
    rw [← h.S he]
    exact testBit_timeMaskOf _ (by have := (h.time_lt ht).2.2 he; omega)
  have hD : t = .hour → (doyPasses rr.doy p = true ↔
      YearDayListed rr.doy (dateOn Gregorian.len proto (t.dayOf rr proto i)).yearDay
        (365 + Gregorian.leapDay (dateOn Gregorian.len proto (t.dayOf rr proto i)).y)) := by
    intro he
    obtain ⟨⟨hyd, hmaxy⟩, hge⟩ := h.yd he
    have hright := hdoy he
    unfold YearDayRight at hright
    have hnoeq := Gregorian.dayNo_eq p.y hon.month.1 hon.month.2 p.d
    have hno' : p.dayNo Gregorian.len = Gregorian.dayNo p.y p.m p.d := rfl
    have hyear : p.date.yearDay + (p.y - proto.y) = p.yd := by
      unfold Date.yearDay Pos.date
      dsimp only
      omega
    dsimp only at hright
    rw [hdate] at hright ⊢
    change doyPasses rr.doy { yd := p.date.yearDay + (p.y - proto.y), maxy := yearDays p.y } = true ↔ _
      at hright
    rw [hyear, ← hmaxy] at hright
    exact hright
  have htimes : unitTimes t rr proto i =
      t.timesAt (makeEnum proto rr) proto.ms p.date (t.secOf rr proto i) := by
    unfold unitTimes
    rw [hdate]
  unfold subdayGroups
  rw [htimes]
  rcases ht with rfl | rfl | rfl
  · have hcond : (dayPasses (wdMaskAll rr.dow) (mMaskOf rr.mon) (dMasksOf rr.dom) p &&
        maskHas (timeMaskOf (bui31List rr.H)) p.H && doyPasses rr.doy p) = true ↔
          UnitListed .hour rr proto i := by
      rw [Bool.and_eq_true, Bool.and_eq_true, hpass, hH, hD rfl]
      exact ⟨fun ⟨⟨h1, h2⟩, h3⟩ => ⟨h1, ⟨h2, by simp, by simp⟩, fun _ => h3⟩,
        fun ⟨h1, h2, h3⟩ => ⟨⟨h1, h2.H⟩, h3 rfl⟩⟩
    change (if _ then [some ((makeEnum proto rr).times2 p.y p.m p.d p.H proto.ms)] else []) = _
    rw [if_congr hcond rfl rfl, h.H]
    split <;> rfl
  · have hcond : (dayPasses (wdMaskAll rr.dow) (mMaskOf rr.mon) (dMasksOf rr.dom) p &&
        maskHas (timeMaskOf (bui31List rr.H)) p.H && maskHas (timeMaskOf (bui63List rr.M)) p.M)
          = true ↔ UnitListed .minute rr proto i := by
      rw [Bool.and_eq_true, Bool.and_eq_true, hpass, hH, hM (by decide)]
      exact ⟨fun ⟨⟨h1, h2⟩, h3⟩ => ⟨h1, ⟨h2, fun _ => h3, by simp⟩, by simp⟩,
        fun ⟨h1, h2, _⟩ => ⟨⟨h1, h2.H⟩, h2.M (by decide)⟩⟩
    change (if _ then [some ((makeEnum proto rr).times1 p.y p.m p.d p.H p.M proto.ms)] else []) = _
    rw [if_congr hcond rfl rfl, h.H, h.M (by decide)]
    split <;> rfl
  · have hcond : (dayPasses (wdMaskAll rr.dow) (mMaskOf rr.mon) (dMasksOf rr.dom) p &&
        maskHas (timeMaskOf (bui31List rr.H)) p.H && maskHas (timeMaskOf (bui63List rr.M)) p.M &&
          maskHas (timeMaskOf (bui63List rr.S)) p.S) = true ↔ UnitListed .second rr proto i := by
      rw [Bool.and_eq_true, Bool.and_eq_true, Bool.and_eq_true, hpass, hH, hM (by decide), hS rfl]
      exact ⟨fun ⟨⟨⟨h1, h2⟩, h3⟩, h4⟩ => ⟨h1, ⟨h2, fun _ => h3, fun _ => h4⟩, by simp⟩,
        fun ⟨h1, h2, _⟩ => ⟨⟨⟨h1, h2.H⟩, h2.M (by decide)⟩, h2.S rfl⟩⟩
    change (if _ then [some [Instant.pack p.y p.m p.d p.H p.M p.S proto.ms]] else []) = _
    rw [if_congr hcond rfl rfl, h.H, h.M (by decide), h.S rfl]
    split <;> rfl

/-- A start instant is valid if it has a time of day, or none. -/
structure ValidTime (i : Instant) : Prop where
  H : i.H < 24 ∨ i.H = echsAllDay
  M : i.M < 60
  S : i.S < 60

/-- Times of a day are in the order of their seconds, and all-day comes before them. -/
theorem timeKey_le {H M S s : Nat} (hH : H < 24 ∧ (H * 60 + M) * 60 + S ≤ s ∨ H = echsAllDay)
    (hM : M < 60) (hS : S < 60) (hs : s < 86400) (ms : Nat) :
    timeKey H M S ms ≤ timeKey (s / 3600) (s / 60 % 60) (s % 60) ms := by
  have hdigits : s = (s / 3600 * 60 + s / 60 % 60) * 60 + s % 60 := by omega
  have h24 : s / 3600 < 24 := by omega
  have h60 : s / 60 % 60 < 60 ∧ s % 60 < 60 := by omega
  generalize s / 3600 = H' at *
  generalize s / 60 % 60 = M' at *
  generalize s % 60 = S' at *
  unfold timeKey
  rw [Nat.mod_eq_of_lt (show H' + 1 < 256 by omega)]
  refine Nat.add_le_add_right (Nat.mul_le_mul_right _ ?_) _
  rcases hH with ⟨hH, hle⟩ | rfl
  · rw [Nat.mod_eq_of_lt (by omega)]
    omega
  · unfold echsAllDay
    omega

/-- Seconds are counted from the start on, so none is before it. -/
theorem second_notBefore (htime : ValidTime proto) {i : Nat} {date : Date} (hfits : date.Fits)
    (h0 : Tick.second.dayOf rr proto i = 0 → date = proto.date)
    (hlater : 0 < Tick.second.dayOf rr proto i → proto.date.key < date.key) :
    ∀ x ∈ Tick.second.timesAt (makeEnum proto rr) proto.ms date (Tick.second.secOf rr proto i),
      echsInstantLtP x proto = false := by
  intro x hx
  obtain ⟨hday, hsec⟩ := clock_second rr proto i
  rw [Nat.mul_one] at hsec
  rw [List.mem_singleton.mp hx, ltP_false_iff, key_eq, key_pack hfits _ (by omega) (by omega)]
  rcases Nat.eq_zero_or_pos (Tick.second.dayOf rr proto i) with hz | hpos
  · -- on the day of the start the seconds since midnight grow
    rw [h0 hz]
    refine Nat.add_le_add_left ?_ _
    rw [hday] at hz
    rw [hsec, Nat.mod_eq_of_lt (by omega)]
    refine timeKey_le ?_ htime.M htime.S (by omega) _
    refine htime.H.imp_left fun hH => ⟨hH, ?_⟩
    have hunit0 : Tick.second.unit0 proto =
        if proto.H = echsAllDay then 0 else ((proto.H * 60 + proto.M) * 60 + proto.S) / 1 := rfl
    rw [if_neg (by unfold echsAllDay; omega), Nat.div_one] at hunit0
    unfold Tick.unit
    omega
  · have hlt := hlater hpos
    have h1 := timeKey_lt (M := proto.M) (S := proto.S) proto.H proto.ms (by have := htime.M; omega)
      (by have := htime.S; omega)
    omega

/-- **A position stores the items of its unit.** -/
theorem subday_stores (ht : t.Below) (htime : ValidTime proto) {i : Nat} {p : Pos}
    (hgroups : (t.loop proto rr).groups p = (subdayGroups t rr proto i).map some)
    (hfits : (dateOn Gregorian.len proto (t.dayOf rr proto i)).Fits)
    (h0 : dateOn Gregorian.len proto 0 = proto.date)
    (hord : ∀ k < t.dayOf rr proto i,
      (dateOn Gregorian.len proto k).key < (dateOn Gregorian.len proto (t.dayOf rr proto i)).key) :
    (t.loop proto rr).StoresUpTo rr.late p (subdayItems t rr proto i) ∧
      (t.loop proto rr).EndsLate rr.late p (subdayItems t rr proto i) := by
  rw [subdayItems_eq]
  rcases ht with rfl | rfl | rfl
  · exact Loop.stores_sifted (judgeProto_eq rr proto) hgroups
  · exact Loop.stores_sifted (judgeProto_eq rr proto) hgroups
  · have hall : (subdayGroups .second rr proto i).flatten.filter (fun x => !echsInstantLtP x proto) =
        (subdayGroups .second rr proto i).flatten.filter fun _ => !false := by
      refine List.filter_congr fun x hx => ?_
      have hmem : x ∈ unitTimes .second rr proto i := by
        obtain ⟨g, hg, hx⟩ := List.mem_flatten.mp hx
        unfold subdayGroups at hg
        split at hg
        · exact List.mem_singleton.mp hg ▸ hx
        · cases hg
      rw [second_notBefore htime hfits (fun hz => by rw [hz, h0])
        (fun hpos => h0 ▸ hord 0 hpos) x hmem]
    unfold notBefore
    rw [hall]
    exact @Loop.stores_sifted _ _ _ _ (fun _ => false) _ (fun _ => rfl) _ _ hgroups

/-! ### The run -/

/-- The start of a loop. -/
def Tick.start0 (t : Tick) (tgt : Instant) : Pos :=
  match t with
  | .minute => { timePos tgt with S := tgt.S }
  | .second => timePos tgt
  | _ => { timePos tgt with M := tgt.M, S := tgt.S }

/-- The time of day a loop starts at. -/
theorem start_clock (htime : ValidTime proto) : ∃ H M S, H < 24 ∧ M < 60 ∧ S < 60 ∧
    (∀ t : Tick, t.unit0 proto = ((H * 60 + M) * 60 + S) / t.secs) ∧ (timePos proto).H = H ∧
      (timePos proto).M = M ∧ (timePos proto).S = S := by
  obtain ⟨hH, hM, hS⟩ := htime
  unfold Tick.unit0 timePos
  by_cases hall : proto.H = echsAllDay
  · refine ⟨0, 0, 0, by decide, by decide, by decide, fun t => ?_, ?_, ?_, ?_⟩
    · exact (if_pos hall).trans (Nat.zero_div _).symm
    · exact if_pos hall
    · exact if_pos hall
    · exact if_pos hall
  · refine ⟨proto.H, proto.M, proto.S, hH.resolve_right hall, hM, hS, fun t => if_neg hall, ?_, ?_, ?_⟩
    · exact if_neg hall
    · exact if_neg hall
    · exact if_neg hall

theorem dayCarried_start (hm : 1 ≤ proto.m ∧ proto.m ≤ 12) (hrule : CommonRule proto.y) (M S : Nat) :
    DayCarried proto.y { timePos proto with M := M, S := S } := by
  refine ⟨?_, rfl⟩
  have hyd := ymdGetYd_eq hrule hm.1 hm.2 proto.d
  have hle := Months.before_le Gregorian.len
    (show 12 * proto.y ≤ Gregorian.monthNo proto.y proto.m by unfold Gregorian.monthNo; omega)
  have hno : Gregorian.dayNo proto.y proto.m proto.d =
      before Gregorian.len (Gregorian.monthNo proto.y proto.m) + proto.d := rfl
  change ymdGetYd proto.y proto.m proto.d + before Gregorian.len (12 * proto.y) + proto.y =
    Gregorian.dayNo proto.y proto.m proto.d + proto.y
  omega

theorem clock_start (rr : Rrulsp) (ht : t.Below) (htime : ValidTime proto) (hm : 1 ≤ proto.m ∧ proto.m ≤ 12)
    (hrule : CommonRule proto.y) :
    t.dayOf rr proto 0 = 0 ∧ ClockAt t rr proto 0 (t.start0 proto) := by
  have hw : wdayGreg proto.y proto.m proto.d = wdayFrom (wdayGreg proto.y proto.m proto.d) 0 :=
    (wdayFrom_zero (echsScaleWday_range .gregorian _ _ _)).symm
  obtain ⟨H, M, S, hH, hM, hS, hunit0, hpH, hpM, hpS⟩ := start_clock htime
  have hunit : t.unit rr proto 0 = ((H * 60 + M) * 60 + S) / t.secs := by
    rw [← hunit0]
    unfold Tick.unit
    omega
  have hday : t.dayOf rr proto 0 = 0 := by
    rcases ht with rfl | rfl | rfl
    · rw [(clock_hour _ _ 0).1, hunit, show Tick.hour.secs = 3600 from rfl]
      omega
    · rw [(clock_minute _ _ 0).1, hunit, show Tick.minute.secs = 60 from rfl]
      omega
    · rw [(clock_second _ _ 0).1, hunit, show Tick.second.secs = 1 from rfl]
      omega
  refine ⟨hday, ?_⟩
  rw [← hday] at hw
  rcases ht with rfl | rfl | rfl
  · refine ⟨hpH.trans ?_, by simp, by simp, hw, fun _ => ⟨dayCarried_start hm hrule _ _, le_rfl⟩⟩
    rw [(clock_hour _ _ 0).2, hunit, show Tick.hour.secs = 3600 from rfl]
    omega
  · refine ⟨hpH.trans ?_, fun _ => hpM.trans ?_, by simp, hw, by simp⟩
    · rw [(clock_minute _ _ 0).2, hunit, show Tick.minute.secs = 60 from rfl]
      omega
    · rw [(clock_minute _ _ 0).2, hunit, show Tick.minute.secs = 60 from rfl]
      omega
  · refine ⟨hpH.trans ?_, fun _ => hpM.trans ?_, fun _ => hpS.trans ?_, hw, by simp⟩
    · rw [(clock_second _ _ 0).2, hunit, show Tick.second.secs = 1 from rfl]
      omega
    · rw [(clock_second _ _ 0).2, hunit, show Tick.second.secs = 1 from rfl]
      omega
    · rw [(clock_second _ _ 0).2, hunit, show Tick.second.secs = 1 from rfl]
      omega

/-- A calendar that ends before March 2100. -/
theorem last_le_of_cal {P : Prop} {k0 last : Nat} (hk0 : k0 < 12 * 2100)
    (hcal : LengthsTo getNdom Gregorian.len P k0 last) :
    last ≤ before Gregorian.len (12 * (2100 + 1)) := by
  by_contra hgt
  have hle := Months.before_le Gregorian.len (show 12 * 2100 + 1 + 1 ≤ 12 * (2100 + 1) by decide)
  have hlen : lenOf getNdom (12 * 2100 + 1) ≠ Gregorian.len (12 * 2100 + 1) := by decide
  rw [Months.before_succ] at hle
  rcases hcal.same (12 * 2100 + 1) (by omega) (by omega) with heq | ⟨-, hend⟩
  · exact hlen heq
  · omega

/-- **The positions of a run** are those of its units. -/
theorem subday_at (ht : t.Below) (hscale : rr.scale = .gregorian)
    (hinter : rr.inter * t.secs < 28 * 86400) (hy : 1901 ≤ proto.y ∧ proto.y ≤ 2099)
    (hm : 1 ≤ proto.m ∧ proto.m ≤ 12)
    (hday : Months.Valid Gregorian.len proto.monthDay.1 proto.monthDay.2) (htime : ValidTime proto)
    {n : Nat} (hdoy : t = .hour → ∀ i < n, YearDayRight rr proto (t.dayOf rr proto i))
    (hcal : LengthsTo getNdom Gregorian.len (DaysFromStart rr) proto.monthDay.1
      (proto.dayNoIn Gregorian.len + t.dayOf rr proto (n - 1))) :
    ∀ i < n, ∃ p, (t.loop proto rr).orbit (t.start0 proto) i = some p ∧
      (t.loop proto rr).StoresUpTo rr.late p (subdayItems t rr proto i) ∧
      (t.loop proto rr).EndsLate rr.late p (subdayItems t rr proto i) := by
  intro i hi
  have hrule : ∀ y, proto.y ≤ y → y < 2100 → CommonRule y := by
    intro y h1 h2
    unfold CommonRule Gregorian.Leap
    omega
  have hs : (t.start0 proto).IsStart proto := by cases t <;> exact ⟨rfl, rfl, rfl⟩
  have h0 : (t.start0 proto).On getNdom Gregorian.len := by
    cases t <;> exact ⟨hm, rfl, hday⟩
  obtain ⟨hday0, hclock0⟩ := clock_start rr ht htime hm (hrule _ le_rfl (by omega))
  have hsucc := fun i => dayOf_succ proto ht hinter i
  have hmono : t.dayOf rr proto i ≤ t.dayOf rr proto (n - 1) :=
    monotone_nat_of_le_succ (fun i => (hsucc i).1) (by omega)
  have hlast := last_le_of_cal (by unfold Instant.monthDay Gregorian.monthNo; dsimp only; omega) hcal
  rw [← hs.month, ← hs.dayNo Gregorian.len] at hcal
  rw [← hs.dayNo Gregorian.len] at hlast
  have hnext : (t.loop proto rr).next = t.next rr := by
    rcases ht with rfl | rfl | rfl <;> rfl
  obtain ⟨p, hp, hon, hno, hclock⟩ := orbit_steps (L := t.loop proto rr)
    (W := fun i p => ClockAt t rr proto i p) (f := t.dayOf rr proto) hday0 hsucc
    (regularLen_scale .gregorian) gregorian_len_le
    (fun i p hon hno hle hW hfit => by
      rw [hnext]
      exact clock_step ht hon hW (show 2100 < 65536 - 366 by decide) hrule (hsucc i).1
        (by have := (hsucc i).1; omega) hfit)
    h0 hclock0 hcal i (by omega)
  have hgroups := subday_groups ht hscale hs (by omega) h0 hon hno hclock (fun he => hdoy he i hi) hcal
    (by omega)
  rw [hs.month, hs.dayNo Gregorian.len] at hcal
  obtain ⟨hfits, -, hord⟩ := dateOn_lt hday (regularLen_scale .gregorian) gregorian_len_le hcal
    (n := t.dayOf rr proto i) (by omega)
  have hzero : dateOn Gregorian.len proto 0 = proto.date := by
    rw [← hs.month, ← hs.dayNo Gregorian.len] at hcal
    rw [(dateOn_eq (n := 0) hs h0 h0 rfl hcal (by omega)).2]
    unfold Pos.date
    rw [hs.y, hs.m, hs.d]
    rfl
  exact ⟨p, hp, subday_stores ht htime hgroups hfits hzero hord⟩

end Clock

theorem subday_plain {t : Tick} (ht : t.Below) (proto : Instant) (rr : Rrulsp) :
    (t.loop proto rr).Plain := by
  rcases ht with rfl | rfl | rfl <;> exact ⟨fun _ => rfl, rfl⟩

theorem badStart_eq_false {i : Instant} (hy : 1600 ≤ i.y) (hm : 1 ≤ i.m ∧ i.m ≤ 12)
    (hd : 1 ≤ i.d ∧ i.d ≤ 31) : badStart i = false := by
  unfold badStart
  rw [badDate_eq_false hm hd, Bool.or_false, decide_eq_false_iff_not]
  omega

/-- On the Gregorian scale only a COUNT of 0 is gone. -/
theorem countOrScaleGone_eq {rr : Rrulsp} (hscale : rr.scale = .gregorian) (nti : Nat) :
    countOrScaleGone rr nti = countGone rr nti := by
  unfold countOrScaleGone countGone
  rw [hscale]
  by_cases hlt : u32OfInt rr.count < nti
  · simp [hlt]
  · simp [hlt]

/-- **What a rule below a day emits** is what it means, if the months are those of the calendar
up to the last day looked at and, for hourly rules, the test of BYYEARDAY is right on each of
these days. -/
theorem subday_exact {t : Tick} (ht : t.Below) {rr : Rrulsp} {tgt : Instant}
    (hscale : rr.scale = .gregorian) (hinter : rr.inter * t.secs < 28 * 86400)
    (hy : 1901 ≤ tgt.y ∧ tgt.y ≤ 2099) (hm : 1 ≤ tgt.m ∧ tgt.m ≤ 12)
    (hday : Months.Valid Gregorian.len tgt.monthDay.1 tgt.monthDay.2) (htime : ValidTime tgt)
    (nti n : Nat) (hdoy : t = .hour → ∀ i < n, YearDayRight rr tgt (t.dayOf rr tgt i))
    (hcal : LengthsTo getNdom Gregorian.len (DaysFromStart rr) tgt.monthDay.1
      (tgt.dayNoIn Gregorian.len + t.dayOf rr tgt (n - 1))) :
    Fills (clampCount rr nti) ((t.expander tgt nti rr).events n) (subdayListing t rr tgt n) := by
  have hd31 : tgt.d ≤ 31 := hday.2.trans (Gregorian.monthDays_range _ _).2
  have hbad := badStart_eq_false (i := tgt) (by omega) hm ⟨hday.1, hd31⟩
  have hstart : (t.expander tgt nti rr).start =
      if countGone rr nti then .error .done else .ok (t.start0 tgt) := by
    rw [← countOrScaleGone_eq hscale]
    rcases ht with rfl | rfl | rfl
    all_goals
      change (if countOrScaleGone rr nti || badStart tgt then _ else _) = _
      rw [hbad, Bool.or_false]
      rfl
  by_cases hgone : countGone rr nti = true
  · rw [if_pos hgone] at hstart
    rw [Expander.events_of_error hstart, clampCount_of_gone hgone]
    exact ⟨List.nil_prefix, Or.inr (Nat.zero_le _)⟩
  · rw [if_neg hgone] at hstart
    have hat := subday_at ht hscale hinter hy hm hday htime hdoy hcal
    have hloop : (t.expander tgt nti rr).loop = t.loop tgt rr ∧
        (t.expander tgt nti rr).room = clampCount rr nti := by
      rcases ht with rfl | rfl | rfl <;> exact ⟨rfl, rfl⟩
    have hentry : ∀ q x, (t.loop tgt rr).entry q x = ⟨x, none⟩ := by
      intro q x
      rcases ht with rfl | rfl | rfl <;> rfl
    have hfills := (Loop.passes_listing (subday_plain ht tgt rr) (e := fun x => ⟨x, none⟩) hentry
      (clampCount rr nti) n fun i hi => by
        obtain ⟨p, hp, hst, hend⟩ := hat i hi
        exact ⟨p, hp, hst, Or.inl hend⟩).map Slot.ev
    rw [List.map_map] at hfills
    have hid : (Slot.ev ∘ fun x => (⟨x, none⟩ : Slot)) = id := rfl
    rw [hid, List.map_id] at hfills
    unfold Expander.events Expander.after Expander.init
    rw [hstart, hloop.1, hloop.2]
    exact hfills

theorem snarfRrule_lastday :
    snarfRrule "FREQ=HOURLY;INTERVAL=24;BYYEARDAY=-1".toList =
      { freq := .hourly, inter := 24, doy := .native [-1] } := by decide +kernel

theorem snarfRrule_firstday :
    snarfRrule "FREQ=HOURLY;INTERVAL=24;BYYEARDAY=1".toList =
      { freq := .hourly, inter := 24, doy := .native [1] } := by decide +kernel

/-- The last day of a year, from the day before on. -/
theorem subday_exact_lastday :
    Fills 64 ((Tick.hour.expander (.pack 2001 12 30 0 0 0 0) 64
        { freq := .hourly, inter := 24, doy := .native [-1] }).events 2)
      (subdayListing .hour { freq := .hourly, inter := 24, doy := .native [-1] }
        (.pack 2001 12 30 0 0 0 0) 2) := by
  refine subday_exact (Or.inl rfl) rfl (by decide) (by decide) (by decide) ⟨by decide, by decide⟩
    ⟨by decide, by decide, by decide⟩ 64 2 (fun _ i hi => ?_) ?_
  · refine yearDayRight_of_first ?_ (by decide) ?_ (by decide) (by decide)
    · interval_cases i <;> decide
    · interval_cases i <;> decide
  · have hday : Tick.hour.dayOf { freq := .hourly, inter := 24, doy := .native [-1] }
        (.pack 2001 12 30 0 0 0 0) (2 - 1) = 1 := by decide
    rw [hday]
    refine lengthsTo_start (s := .gregorian) rfl _ (by decide) ?_
    rw [Gregorian.dayNo_closed _ (by decide) (by decide),
      Gregorian.dayNo_closed 2100 (by decide) (by decide)]
    decide

/-- After New Year the day of the year is ahead by one, so the first one is missed. -/
theorem hly_misses_firstday :
    ¬ ∀ (s : List Char) (t : Tick) (tgt : Instant) (nti n : Nat), t.Below →
      (snarfRrule s).scale = .gregorian → 1 ≤ (snarfRrule s).inter →
      (snarfRrule s).inter * t.secs < 28 * 86400 → 1901 ≤ tgt.y → tgt.y ≤ 2099 →
      1 ≤ tgt.m ∧ tgt.m ≤ 12 → Months.Valid Gregorian.len tgt.monthDay.1 tgt.monthDay.2 →
      ValidTime tgt →
      Fills (clampCount (snarfRrule s) nti) ((t.expander tgt nti (snarfRrule s)).events n)
        (subdayListing t (snarfRrule s) tgt n) := by
  intro h
  have hfills := h "FREQ=HOURLY;INTERVAL=24;BYYEARDAY=1".toList .hour (.pack 2001 12 31 0 0 0 0) 64 2
    (Or.inl rfl)
  rw [snarfRrule_firstday] at hfills
  have hcode : (Tick.hour.expander (.pack 2001 12 31 0 0 0 0) 64
      { freq := .hourly, inter := 24, doy := .native [1] }).events 2 = [] := by decide
  have hmeant : subdayListing .hour { freq := .hourly, inter := 24, doy := .native [1] }
      (.pack 2001 12 31 0 0 0 0) 2 = [.pack 2002 1 1 0 0 0 0] := by decide
  have hno := hfills (by decide) (by decide) (by decide) (by decide) (by decide) (by decide)
    ⟨by decide, by decide⟩ ⟨by decide, by decide, by decide⟩
  rw [hcode, hmeant] at hno
  revert hno
  unfold Fills
  decide

end Echse
