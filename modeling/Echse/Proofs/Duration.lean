/-
Adding durations to instants, and the difference of two.

`echs_instant_add` carries through the time of the day and then goes from month to month.
Both keep the count of milliseconds, on the calendar with a leap day every four years.
`echs_instant_diff` is the difference of the counts, but in 32 bits, so it is only right
for some fifty days.
-/
import Echse.Refill
import Echse.Proofs.Carry
import Echse.Proofs.Keys

namespace Echse

open Gregorian (monthNo yearDaysBefore)
open Months (before before_succ)

/-! ### The calendar -/

/-- The months as `instant.c` counts them. -/
def fourLen : Nat → Nat := lenOf ndimGreg

theorem fourLen_monthNo {y m : Nat} (h1 : 1 ≤ m) (h12 : m ≤ 12) :
    fourLen (monthNo y m) = ndimGreg y m :=
  lenOf_monthNo ndimGreg h1 h12

theorem ndimGreg_add (y : Nat) {i : Nat} (h : i < 12) :
    yearDaysBefore (if y % 4 = 0 then 1 else 0) i + ndimGreg y (i + 1) =
      yearDaysBefore (if y % 4 = 0 then 1 else 0) (i + 1) := by
  interval_cases i <;> simp [yearDaysBefore, ndimGreg, gregMdays] <;> omega

theorem before_four_add (y : Nat) {i : Nat} (h : i ≤ 12) :
    before fourLen (12 * y + i) =
      before fourLen (12 * y) + yearDaysBefore (if y % 4 = 0 then 1 else 0) i := by
  refine Gregorian.before_year_add_of (fun i hi => ?_) h
  have hlen := fourLen_monthNo (y := y) (m := i + 1) (by omega) (by omega)
  rw [monthNo, Nat.add_sub_cancel] at hlen
  rw [hlen, ndimGreg_add y hi]

/-- The days before a year. -/
theorem before_four (y : Nat) : before fourLen (12 * y) = 365 * y + (y + 3) / 4 := by
  induction y with
  | zero => rfl
  | succ y ih =>
      rw [Nat.mul_succ, before_four_add y le_rfl, ih, yearDaysBefore]
      · split <;> omega
      all_goals omega

/-! ### Days -/

/-- A year, a month and a day of it, which have the number `n`. -/
structure OnDay (n : Int) (p : Nat × Nat × Int) : Prop where
  month : 1 ≤ p.2.1 ∧ p.2.1 ≤ 12
  day : 1 ≤ p.2.2 ∧ p.2.2 ≤ ndimGreg p.1 p.2.1
  no : (before fourLen (monthNo p.1 p.2.1) : Int) + p.2.2 = n

theorem onDay {n : Int} {y m : Nat} {d : Int} (h1 : 1 ≤ m) (h12 : m ≤ 12) (hd1 : 1 ≤ d)
    (hd : d ≤ ndimGreg y m) (hno : (before fourLen (monthNo y m) : Int) + d = n) :
    OnDay n (y, m, d) :=
  ⟨⟨h1, h12⟩, ⟨hd1, hd⟩, hno⟩

theorem before_next {y m : Nat} (h1 : 1 ≤ m) (h12 : m ≤ 12) :
    before fourLen (monthNo y m + 1) = before fourLen (monthNo y m) + ndimGreg y m := by
  rw [before_succ, fourLen_monthNo h1 h12]

/-- Going back by months, from a day that is before the month or in it. -/
theorem fixupBack_spec {n : Int} (hn : 1 ≤ n) (fuel y m : Nat) (d : Int) (h1 : 1 ≤ m)
    (h12 : m ≤ 12) (hno : (before fourLen (monthNo y m) : Int) + d = n)
    (hd : d ≤ ndimGreg y m) (hf : 1 ≤ d + fuel) : OnDay n (fixupBack fuel y m d) := by
  induction fuel generalizing y m d with
  | zero => exact onDay h1 h12 (by omega) hd hno
  | succ fuel ih =>
      rw [fixupBack]
      by_cases hlt : d < 1
      · rw [if_pos hlt]
        dsimp only
        -- there are days before the month, so there is a month before it
        have hpos : 0 < monthNo y m := by
          by_contra h0
          rw [Nat.eq_zero_of_not_pos h0, Months.before_zero] at hno
          omega
        generalize hy' : (if m - 1 < 1 then y - 1 else y) = y'
        generalize hm' : (if m - 1 < 1 then 12 else m - 1) = m'
        have hmonth : 1 ≤ m' ∧ m' ≤ 12 ∧ monthNo y' m' + 1 = monthNo y m := by
          unfold monthNo at hpos ⊢
          split at hm' <;> split at hy' <;> omega
        obtain ⟨h1', h12', hprev⟩ := hmonth
        have hb := before_next (y := y') h1' h12'
        have hr := (ndimGreg_range y' h1' h12').1
        rw [hprev] at hb
        exact ih y' m' _ h1' h12' (by omega) (by omega) (by omega)
      · rw [if_neg hlt]
        exact onDay h1 h12 (by omega) hd hno

/-- Going on by months. -/
theorem fixupFwd_spec {n : Int} (fuel y m : Nat) (d : Int) (h1 : 1 ≤ m) (h12 : m ≤ 12)
    (hno : (before fourLen (monthNo y m) : Int) + d = n) (hd : 1 ≤ d) (hf : d ≤ fuel) :
    OnDay n (fixupFwd fuel y m d) := by
  induction fuel generalizing y m d with
  | zero => omega
  | succ fuel ih =>
      rw [fixupFwd]
      by_cases hlt : (ndimGreg y m : Int) < d
      · rw [if_pos hlt]
        have hb := before_next (y := y) h1 h12
        have hr := (ndimGreg_range y h1 h12).1
        generalize hy' : (if 12 < m + 1 then y + 1 else y) = y'
        generalize hm' : (if 12 < m + 1 then 1 else m + 1) = m'
        have hmonth : 1 ≤ m' ∧ m' ≤ 12 ∧ monthNo y' m' = monthNo y m + 1 := by
          unfold monthNo
          split at hm' <;> split at hy' <;> omega
        obtain ⟨h1', h12', hnext⟩ := hmonth
        rw [← hnext] at hb
        exact ih y' m' _ h1' h12' (by omega) (by omega) (by omega)
      · rw [if_neg hlt]
        exact onDay h1 h12 hd (by omega) hno

/-- **Days are added to a date** by going to the month they fall in. -/
theorem addDd_spec {n : Int} (hn : 1 ≤ n) {y m : Nat} {d : Int} (h1 : 1 ≤ m) (h12 : m ≤ 12)
    (hno : (before fourLen (monthNo y m) : Int) + d = n) : OnDay n (addDd y m d) := by
  have hr := (ndimGreg_range y h1 h12).1
  rw [addDd]
  by_cases hmid : 1 ≤ d ∧ d ≤ 28
  · rw [if_pos hmid]
    exact onDay h1 h12 hmid.1 (by omega) hno
  · rw [if_neg hmid]
    by_cases hlt : d < 1
    · rw [if_pos hlt]
      exact fixupBack_spec hn _ y m d h1 h12 hno (by omega) (by omega)
    · rw [if_neg hlt]
      exact fixupFwd_spec _ y m d h1 h12 hno (by omega) (by omega)

/-! ### Times of the day -/

/-- A unit is carried as it should be, whatever the signs. -/
theorem addUnit_spec (v : Nat) (msd : Int) {n : Int} (hn : 0 < n) :
    ((addUnit v msd n).1 : Int) + n * (addUnit v msd n).2 = v + msd ∧
      ((addUnit v msd n).1 : Int) < n := by
  have hsum := Int.mul_tdiv_add_tmod (v + msd) n
  have hlt := Int.tmod_lt_of_pos (v + msd) hn
  have hgt : -n < Int.tmod (v + msd) n := Int.lt_tmod_of_pos _ hn
  unfold addUnit
  dsimp only
  by_cases h0 : 0 ≤ Int.tmod (v + msd) n
  · rw [if_pos h0]
    dsimp only
    rw [Int.toNat_of_nonneg h0]
    omega
  · rw [if_neg h0]
    dsimp only
    rw [Int.toNat_of_nonneg (by omega), Int.mul_sub]
    omega

/-- The kinds of instants: a day, a second, or a millisecond. -/
inductive Instant.Kind where
  | allDay
  | allSec
  | milli

/-- The milliseconds that an instant of a kind takes. -/
def Instant.Kind.unit : Kind → Nat
  | allDay => 86400000
  | allSec => 1000
  | milli => 1

/-- The clock of an instant. -/
structure Instant.Clock (i : Instant) : Prop where
  hour : i.H < 24
  min : i.M < 60
  sec : i.S < 60

instance (i : Instant) : Decidable i.Clock :=
  decidable_of_iff (i.H < 24 ∧ i.M < 60 ∧ i.S < 60)
    ⟨fun ⟨hH, hM, hS⟩ => ⟨hH, hM, hS⟩, fun ⟨hH, hM, hS⟩ => ⟨hH, hM, hS⟩⟩

/-- A time of the day of a kind. -/
def Instant.Kind.Time (i : Instant) : Kind → Prop
  | allDay => i.H = echsAllDay ∧ i.M = 0 ∧ i.S = 0 ∧ i.ms = 0
  | allSec => i.Clock ∧ i.ms = echsAllSec
  | milli => i.Clock ∧ i.ms < 1000

instance (i : Instant) : (k : Instant.Kind) → Decidable (k.Time i)
  | .allDay => inferInstanceAs (Decidable (_ ∧ _))
  | .allSec => inferInstanceAs (Decidable (_ ∧ _))
  | .milli => inferInstanceAs (Decidable (_ ∧ _))

/-- A valid instant of a kind. -/
structure Instant.Proper (k : Instant.Kind) (i : Instant) : Prop where
  month : 1 ≤ i.m ∧ i.m ≤ 12
  day : 1 ≤ i.d ∧ i.d ≤ ndimGreg i.y i.m
  time : k.Time i

instance (k : Instant.Kind) (i : Instant) : Decidable (i.Proper k) :=
  decidable_of_iff ((1 ≤ i.m ∧ i.m ≤ 12) ∧ (1 ≤ i.d ∧ i.d ≤ ndimGreg i.y i.m) ∧ k.Time i)
    ⟨fun ⟨hm, hd, ht⟩ => ⟨hm, hd, ht⟩, fun ⟨hm, hd, ht⟩ => ⟨hm, hd, ht⟩⟩

/-- The day number of an instant. -/
def Instant.dayNo (i : Instant) : Nat := Months.dayNo fourLen (monthNo i.y i.m) i.d

/-- The seconds of the day that have passed, by the clock. -/
def Instant.secs (i : Instant) : Nat := (i.H * 60 + i.M) * 60 + i.S

/-- The milliseconds of the day that have passed. -/
def Instant.dayMsecs (i : Instant) : Nat :=
  if echsInstantAllDayP i then 0
  else i.secs * 1000 + if echsInstantAllSecP i then 0 else i.ms

/-- The count of milliseconds. -/
def Instant.msecs (i : Instant) : Nat := 86400000 * i.dayNo + i.dayMsecs

/-! ### Adding -/

theorem OnDay.year_lt {n : Int} {p : Nat × Nat × Int} (h : OnDay n p) {Y : Nat}
    (hn : n ≤ before fourLen (12 * Y)) : p.1 < Y := by
  by_contra hY
  have hle := Months.before_le fourLen (show 12 * Y ≤ monthNo p.1 p.2.1 by
    unfold monthNo
    omega)
  have hno := h.no
  have hday := h.day.1
  omega

/-- An instant of a day and a time. -/
theorem proper_pack {k : Instant.Kind} {n : Int} {p : Nat × Nat × Int} (h : OnDay n p)
    (hn : n ≤ before fourLen (12 * 65536)) {H M S ms : Nat}
    (ht : k.Time (.pack p.1 p.2.1 p.2.2.toNat H M S ms)) :
    (Instant.pack p.1 p.2.1 p.2.2.toNat H M S ms).Proper k ∧
      ((Instant.pack p.1 p.2.1 p.2.2.toNat H M S ms).dayNo : Int) = n := by
  have hy := h.year_lt hn
  obtain ⟨⟨h1, h12⟩, ⟨hd1, hd⟩, hno⟩ := h
  have hr := (ndimGreg_range p.1 h1 h12).2
  have hym : p.1 % 65536 = p.1 := Nat.mod_eq_of_lt hy
  have hmm : p.2.1 % 256 = p.2.1 := Nat.mod_eq_of_lt (by omega)
  have hdm : p.2.2.toNat % 256 = p.2.2.toNat := Nat.mod_eq_of_lt (by omega)
  refine ⟨⟨?_, ?_, ht⟩, ?_⟩
  · show 1 ≤ p.2.1 % 256 ∧ p.2.1 % 256 ≤ 12
    omega
  · show 1 ≤ p.2.2.toNat % 256 ∧ p.2.2.toNat % 256 ≤ ndimGreg (p.1 % 65536) (p.2.1 % 256)
    rw [hym, hmm, hdm]
    omega
  · show ((before fourLen (monthNo (p.1 % 65536) (p.2.1 % 256)) + p.2.2.toNat % 256 : Nat) : Int) = n
    rw [hym, hmm, hdm]
    omega

/-- The date of an instant with days added. -/
def Instant.plusDays (x : Instant) (dd : Int) : Nat × Nat × Int :=
  if dd = 0 then (x.y, x.m, x.d) else addDd x.y x.m (x.d + dd)

theorem plusDays_spec {k : Instant.Kind} {x : Instant} (hx : x.Proper k) {dd : Int}
    (hn : 1 ≤ (x.dayNo : Int) + dd) : OnDay (x.dayNo + dd) (x.plusDays dd) := by
  have hno : (x.dayNo : Int) = before fourLen (monthNo x.y x.m) + x.d := rfl
  have hd := hx.day
  rw [Instant.plusDays]
  by_cases h0 : dd = 0
  · rw [if_pos h0]
    exact onDay hx.month.1 hx.month.2 (by omega) (by omega) (by omega)
  · rw [if_neg h0]
    exact addDd_spec hn hx.month.1 hx.month.2 (by omega)

/-- Seconds added to a clock: hours, minutes, seconds, and the days that are carried. -/
def Instant.plusSecs (x : Instant) (c : Int) : Nat × Nat × Nat × Int :=
  let S := addUnit x.S c 60
  let M := addUnit x.M S.2 60
  let H := addUnit x.H M.2 24
  (H.1, M.1, S.1, H.2)

theorem plusSecs_spec (x : Instant) (c : Int) :
    (x.plusSecs c).1 < 24 ∧ (x.plusSecs c).2.1 < 60 ∧ (x.plusSecs c).2.2.1 < 60 ∧
      ((((x.plusSecs c).1 * 60 + (x.plusSecs c).2.1) * 60 + (x.plusSecs c).2.2.1 : Nat) : Int) +
        86400 * (x.plusSecs c).2.2.2 = ((x.H * 60 + x.M) * 60 + x.S : Nat) + c := by
  unfold Instant.plusSecs
  dsimp only
  obtain ⟨hS, hS60⟩ := addUnit_spec x.S c (n := 60) (by decide)
  generalize addUnit x.S c 60 = S at *
  obtain ⟨hM, hM60⟩ := addUnit_spec x.M S.2 (n := 60) (by decide)
  generalize addUnit x.M S.2 60 = M at *
  obtain ⟨hH, hH24⟩ := addUnit_spec x.H M.2 (n := 24) (by decide)
  generalize addUnit x.H M.2 24 = H at *
  omega

/-- Adding is adding to the clock, and then days to the date. -/
theorem echsInstantAdd_clock {x : Instant} (hx : x.H < 24) (d : Int) {ms : Nat × Int}
    (hms : ms = if echsInstantAllSecP x then (x.ms, Int.tdiv (Int.tmod d msecsPerDay) 1000)
      else addUnit x.ms (Int.tmod d msecsPerDay) 1000) :
    echsInstantAdd x d =
      .pack (x.plusDays (Int.tdiv d msecsPerDay + (x.plusSecs ms.2).2.2.2)).1
        (x.plusDays (Int.tdiv d msecsPerDay + (x.plusSecs ms.2).2.2.2)).2.1
        (x.plusDays (Int.tdiv d msecsPerDay + (x.plusSecs ms.2).2.2.2)).2.2.toNat
        (x.plusSecs ms.2).1 (x.plusSecs ms.2).2.1 (x.plusSecs ms.2).2.2.1 ms.1 := by
  have hall : ¬ echsInstantAllDayP x = true := by
    simp only [echsInstantAllDayP, echsAllDay, beq_iff_eq]
    omega
  unfold echsInstantAdd
  dsimp only
  rw [if_neg hall, ← hms]
  unfold Instant.plusDays Instant.plusSecs
  dsimp only
  split <;> rfl

/-- The days and the seconds of a duration, both cut off towards zero. -/
theorem tdiv_secs (d : Int) :
    1000 * Int.tdiv d 1000 =
      86400000 * Int.tdiv d msecsPerDay + 1000 * Int.tdiv (Int.tmod d msecsPerDay) 1000 := by
  have hpos (e : Int) (he : 0 ≤ e) : 1000 * Int.tdiv e 1000 =
      86400000 * Int.tdiv e 86400000 + 1000 * Int.tdiv (Int.tmod e 86400000) 1000 := by
    rw [Int.tmod_eq_emod_of_nonneg he, Int.tdiv_eq_ediv_of_nonneg he,
      Int.tdiv_eq_ediv_of_nonneg he, Int.tdiv_eq_ediv_of_nonneg (by omega)]
    omega
  rw [msecsPerDay]
  rcases le_total 0 d with h | h
  · exact hpos d h
  · have := hpos (-d) (by omega)
    rw [Int.neg_tdiv, Int.neg_tdiv, Int.neg_tmod, Int.neg_tdiv] at this
    omega

theorem Instant.Clock.not_allDay {i : Instant} (h : i.Clock) : echsInstantAllDayP i = false := by
  have := h.hour
  simp only [echsInstantAllDayP, echsAllDay, beq_eq_false_iff_ne]
  omega

theorem Instant.Clock.secs_lt {i : Instant} (h : i.Clock) : i.secs < 86400 := by
  obtain ⟨hH, hM, hS⟩ := h
  unfold Instant.secs
  omega

theorem dayMsecs_allDay {i : Instant} (h : Instant.Kind.allDay.Time i) : i.dayMsecs = 0 := by
  rw [Instant.dayMsecs, if_pos (by simpa only [echsInstantAllDayP, beq_iff_eq] using h.1)]

theorem dayMsecs_allSec {i : Instant} (h : Instant.Kind.allSec.Time i) :
    i.dayMsecs = i.secs * 1000 := by
  have hall : echsInstantAllSecP i = true := by simpa only [echsInstantAllSecP, beq_iff_eq] using h.2
  rw [Instant.dayMsecs, if_neg (Bool.not_eq_true _ ▸ h.1.not_allDay), if_pos hall, Nat.add_zero]

theorem not_allSec {i : Instant} (h : i.ms < 1000) : echsInstantAllSecP i = false := by
  simp only [echsInstantAllSecP, echsAllSec, beq_eq_false_iff_ne]
  omega

theorem dayMsecs_milli {i : Instant} (h : Instant.Kind.milli.Time i) :
    i.dayMsecs = i.secs * 1000 + i.ms := by
  rw [Instant.dayMsecs, if_neg (Bool.not_eq_true _ ▸ h.1.not_allDay),
    if_neg (Bool.not_eq_true _ ▸ not_allSec h.2)]

/-- Adding to an instant with a clock: `ms` is its new millisecond, with what is carried. -/
theorem add_clock {k : Instant.Kind} {x : Instant} (hx : x.Proper k) (hc : x.Clock) (d : Int)
    {ms : Nat × Int}
    (hms : ms = if echsInstantAllSecP x then (x.ms, Int.tdiv (Int.tmod d msecsPerDay) 1000)
      else addUnit x.ms (Int.tmod d msecsPerDay) 1000)
    (hk : ms.1 < 1024 ∧ ∀ i : Instant, i.Clock → i.ms = ms.1 → k.Time i) {n : Int}
    (hn : 86400 * (x.dayNo + Int.tdiv d msecsPerDay) + x.secs + ms.2 = n) (h1 : 86400 ≤ n)
    (h2 : n < 86400 * (before fourLen (12 * 65536) + 1 : Nat)) :
    (echsInstantAdd x d).Proper k ∧ (echsInstantAdd x d).Clock ∧
      (echsInstantAdd x d).ms = ms.1 ∧
      (86400 * (echsInstantAdd x d).dayNo + (echsInstantAdd x d).secs : Int) = n := by
  obtain ⟨hH, hM, hS, hsum⟩ := plusSecs_spec x ms.2
  rw [echsInstantAdd_clock hc.hour d hms]
  have hsecs : ((x.H * 60 + x.M) * 60 + x.S : Nat) = x.secs := rfl
  rw [hsecs] at hsum
  generalize x.plusSecs ms.2 = t at *
  have hday := plusDays_spec hx
    (show 1 ≤ (x.dayNo : Int) + (Int.tdiv d msecsPerDay + t.2.2.2) by omega)
  have hclock : (Instant.pack (x.plusDays (Int.tdiv d msecsPerDay + t.2.2.2)).1
      (x.plusDays (Int.tdiv d msecsPerDay + t.2.2.2)).2.1
      (x.plusDays (Int.tdiv d msecsPerDay + t.2.2.2)).2.2.toNat t.1 t.2.1 t.2.2.1 ms.1).Clock := by
    refine ⟨?_, ?_, ?_⟩
    · show t.1 % 256 < 24
      omega
    · show t.2.1 % 256 < 60
      omega
    · show t.2.2.1 % 64 < 60
      omega
  have hmsk : ms.1 % 1024 = ms.1 := Nat.mod_eq_of_lt hk.1
  obtain ⟨hp, hno⟩ := proper_pack hday (by omega) (hk.2 _ hclock hmsk)
  refine ⟨hp, hclock, hmsk, ?_⟩
  rw [hno]
  have hsec : (Instant.pack (x.plusDays (Int.tdiv d msecsPerDay + t.2.2.2)).1
      (x.plusDays (Int.tdiv d msecsPerDay + t.2.2.2)).2.1
      (x.plusDays (Int.tdiv d msecsPerDay + t.2.2.2)).2.2.toNat t.1 t.2.1 t.2.2.1 ms.1).secs =
        (t.1 * 60 + t.2.1) * 60 + t.2.2.1 := by
    show (t.1 % 256 * 60 + t.2.1 % 256) * 60 + t.2.2.1 % 64 = _
    omega
  rw [hsec]
  omega

theorem add_allDay {x : Instant} (hx : x.Proper .allDay) (d : Int)
    (h1 : 86400000 ≤ (x.msecs : Int) + 86400000 * Int.tdiv d 86400000)
    (h2 : (x.msecs : Int) + 86400000 * Int.tdiv d 86400000 <
      86400000 * (before fourLen (12 * 65536) + 1 : Nat)) :
    (echsInstantAdd x d).Proper .allDay ∧
      ((echsInstantAdd x d).msecs : Int) = x.msecs + 86400000 * Int.tdiv d 86400000 := by
  obtain ⟨hH, hM, hS, hms⟩ := hx.time
  have hall : echsInstantAllDayP x = true := by
    simpa only [echsInstantAllDayP, beq_iff_eq] using hH
  have hno : x.dayNo = before fourLen (monthNo x.y x.m) + x.d := rfl
  unfold Instant.msecs at *
  rw [dayMsecs_allDay hx.time] at *
  unfold echsInstantAdd
  dsimp only
  rw [if_pos hall, msecsPerDay]
  have hday := addDd_spec (n := x.dayNo + Int.tdiv d 86400000) (by omega)
    (y := x.y) hx.month.1 hx.month.2 (d := x.d + Int.tdiv d 86400000) (by omega)
  generalize addDd x.y x.m (x.d + Int.tdiv d 86400000) = p at *
  obtain ⟨y, m, e⟩ := p
  have hk : Instant.Kind.allDay.Time (.pack y m e.toNat x.H x.M x.S x.ms) := by
    rw [hH, hM, hS, hms]
    exact ⟨rfl, rfl, rfl, rfl⟩
  obtain ⟨hp, hn⟩ := proper_pack hday (by omega) hk
  refine ⟨hp, ?_⟩
  dsimp only at hk hn ⊢
  rw [dayMsecs_allDay hk]
  omega

theorem add_allSec {x : Instant} (hx : x.Proper .allSec) (d : Int)
    (h1 : 86400000 ≤ (x.msecs : Int) + 1000 * Int.tdiv d 1000)
    (h2 : (x.msecs : Int) + 1000 * Int.tdiv d 1000 <
      86400000 * (before fourLen (12 * 65536) + 1 : Nat)) :
    (echsInstantAdd x d).Proper .allSec ∧
      ((echsInstantAdd x d).msecs : Int) = x.msecs + 1000 * Int.tdiv d 1000 := by
  obtain ⟨hc, hms⟩ := hx.time
  have hall : echsInstantAllSecP x = true := by
    simpa only [echsInstantAllSecP, beq_iff_eq] using hms
  unfold Instant.msecs at *
  rw [dayMsecs_allSec hx.time, tdiv_secs d] at *
  obtain ⟨hp, -, -, hn⟩ := add_clock hx hc d (by rw [if_pos hall])
    ⟨show x.ms < 1024 by rw [hms]; decide, fun i hi him => ⟨hi, him.trans hms⟩⟩ rfl
    (by dsimp only; omega) (by dsimp only; omega)
  refine ⟨hp, ?_⟩
  rw [dayMsecs_allSec hp.time]
  dsimp only at hn
  omega

theorem add_milli {x : Instant} (hx : x.Proper .milli) (d : Int)
    (h1 : 86400000 ≤ (x.msecs : Int) + d)
    (h2 : (x.msecs : Int) + d < 86400000 * (before fourLen (12 * 65536) + 1 : Nat)) :
    (echsInstantAdd x d).Proper .milli ∧ ((echsInstantAdd x d).msecs : Int) = x.msecs + d := by
  have hsum : 86400000 * Int.tdiv d msecsPerDay + Int.tmod d msecsPerDay = d :=
    Int.mul_tdiv_add_tmod d msecsPerDay
  obtain ⟨hc, hms⟩ := hx.time
  unfold Instant.msecs at *
  rw [dayMsecs_milli hx.time] at *
  obtain ⟨hu, hu1000⟩ := addUnit_spec x.ms (Int.tmod d msecsPerDay) (n := 1000) (by decide)
  obtain ⟨hp, -, hms', hn⟩ := add_clock hx hc d
    (show addUnit x.ms (Int.tmod d msecsPerDay) 1000 = _ by rw [not_allSec hms]; rfl)
    ⟨by omega, fun i hi him => ⟨hi, by omega⟩⟩ rfl (by omega) (by omega)
  refine ⟨hp, ?_⟩
  rw [dayMsecs_milli hp.time, hms']
  omega

/-- **Adding a duration** adds it to the count, less what is no whole unit of the kind. -/
theorem echsInstantAdd_spec {k : Instant.Kind} {x : Instant} (hx : x.Proper k) (d : Int)
    (h1 : 86400000 ≤ (x.msecs : Int) + k.unit * Int.tdiv d k.unit)
    (h2 : (x.msecs : Int) + k.unit * Int.tdiv d k.unit <
      86400000 * (before fourLen (12 * 65536) + 1 : Nat)) :
    (echsInstantAdd x d).Proper k ∧
      ((echsInstantAdd x d).msecs : Int) = x.msecs + k.unit * Int.tdiv d k.unit := by
  cases k with
  | allDay => exact add_allDay hx d h1 h2
  | allSec => exact add_allSec hx d h1 h2
  | milli =>
      simp only [Instant.Kind.unit, Nat.cast_one, Int.tdiv_one, one_mul] at h1 h2 ⊢
      exact add_milli hx d h1 h2

/-! ### Instants by their count -/

namespace Instant.Proper

variable {k : Kind} {a b : Instant}

theorem valid (h : a.Proper k) : Months.Valid fourLen (monthNo a.y a.m) a.d :=
  ⟨h.day.1, by rw [fourLen_monthNo h.month.1 h.month.2]; exact h.day.2⟩

theorem dayMsecs_lt (h : a.Proper k) : a.dayMsecs < 86400000 := by
  have ht := h.time
  cases k with
  | allDay => rw [dayMsecs_allDay ht]; decide
  | allSec =>
      have := ht.1.secs_lt
      rw [dayMsecs_allSec ht]
      omega
  | milli =>
      have := ht.1.secs_lt
      have := ht.2
      rw [dayMsecs_milli ht]
      omega

/-- Clocks are in the order of their seconds. -/
theorem timeKey_lt_of_secs (ha : a.Clock) (hb : b.Clock) {m n : Nat}
    (h : a.secs < b.secs ∨ a.secs = b.secs ∧ (m + 1) % 1024 < (n + 1) % 1024) :
    timeKey a.H a.M a.S m < timeKey b.H b.M b.S n := by
  obtain ⟨hH, hM, hS⟩ := ha
  obtain ⟨hH', hM', hS'⟩ := hb
  have hm := Nat.mod_lt (m + 1) (show 0 < 1024 by decide)
  have hn := Nat.mod_lt (n + 1) (show 0 < 1024 by decide)
  rw [secs, secs] at h
  rw [timeKey, timeKey, Nat.mod_eq_of_lt (a := a.H + 1) (by omega),
    Nat.mod_eq_of_lt (a := b.H + 1) (by omega)]
  generalize (m + 1) % 1024 = m at *
  generalize (n + 1) % 1024 = n at *
  have hlex : a.H < b.H ∨ a.H = b.H ∧ (a.M < b.M ∨ a.M = b.M ∧
      (a.S < b.S ∨ a.S = b.S ∧ m < n)) := by omega
  rcases hlex with h | ⟨hH, h | ⟨hM, h | ⟨hS, h⟩⟩⟩ <;> omega

/-- Times of one kind are in the order of their milliseconds. -/
theorem timeKey_lt (ha : a.Proper k) (hb : b.Proper k) (h : a.dayMsecs < b.dayMsecs) :
    timeKey a.H a.M a.S a.ms < timeKey b.H b.M b.S b.ms := by
  have hta := ha.time
  have htb := hb.time
  cases k with
  | allDay =>
      rw [dayMsecs_allDay hta, dayMsecs_allDay htb] at h
      exact absurd h (lt_irrefl _)
  | allSec =>
      rw [dayMsecs_allSec hta, dayMsecs_allSec htb] at h
      exact timeKey_lt_of_secs hta.1 htb.1 (.inl (by omega))
  | milli =>
      rw [dayMsecs_milli hta, dayMsecs_milli htb] at h
      have hms := hta.2
      have hms' := htb.2
      exact timeKey_lt_of_secs hta.1 htb.1 (by omega)

/-- The time of the day is all that is in its milliseconds. -/
theorem time_eq (ha : a.Proper k) (hb : b.Proper k) (h : a.dayMsecs = b.dayMsecs) :
    a.H = b.H ∧ a.M = b.M ∧ a.S = b.S ∧ a.ms = b.ms := by
  have hta := ha.time
  have htb := hb.time
  cases k with
  | allDay =>
      obtain ⟨hH, hM, hS, hms⟩ := hta
      obtain ⟨hH', hM', hS', hms'⟩ := htb
      omega
  | allSec =>
      rw [dayMsecs_allSec hta, dayMsecs_allSec htb, secs, secs] at h
      obtain ⟨⟨hH, hM, hS⟩, hms⟩ := hta
      obtain ⟨⟨hH', hM', hS'⟩, hms'⟩ := htb
      omega
  | milli =>
      rw [dayMsecs_milli hta, dayMsecs_milli htb, secs, secs] at h
      obtain ⟨⟨hH, hM, hS⟩, hms⟩ := hta
      obtain ⟨⟨hH', hM', hS'⟩, hms'⟩ := htb
      omega

/-- A day has one date. -/
theorem date_eq (ha : a.Proper k) (hb : b.Proper k) (h : a.dayNo = b.dayNo) :
    a.date = b.date := by
  obtain ⟨hmonth, hd⟩ := Months.dayNo_inj ha.valid hb.valid h
  have hm := ha.month
  have hm' := hb.month
  unfold monthNo at hmonth
  rw [date, date, show a.y = b.y by omega, show a.m = b.m by omega, hd]

/-- **A count has one instant of a kind.** -/
theorem msecs_inj (ha : a.Proper k) (hb : b.Proper k) (h : a.msecs = b.msecs) : a = b := by
  have hla := ha.dayMsecs_lt
  have hlb := hb.dayMsecs_lt
  unfold msecs at h
  have hdate := ha.date_eq hb (by omega)
  obtain ⟨hH, hM, hS, hms⟩ := ha.time_eq hb (by omega)
  apply key_inj
  rw [key_eq, key_eq, hdate, hH, hM, hS, hms]

theorem key_lt (ha : a.Proper k) (hb : b.Proper k) (h : a.msecs < b.msecs) : a.key < b.key := by
  have hla := ha.dayMsecs_lt
  have hlb := hb.dayMsecs_lt
  have hfit (i : Instant) : i.date.Fits := ⟨i.fits.1, i.fits.2.1, i.fits.2.2.1⟩
  unfold msecs at h
  rcases Nat.lt_or_ge a.dayNo b.dayNo with hday | hday
  · have hlt := (Months.dayNo_lt_iff ha.valid hb.valid).1 hday
    have hdate : a.date.key < b.date.key := by
      have hm := ha.month
      have hm' := hb.month
      rw [Date.key_lt_iff (hfit a) (hfit b)]
      unfold monthNo at hlt
      show a.y < b.y ∨ a.y = b.y ∧ (a.m < b.m ∨ a.m = b.m ∧ a.d < b.d)
      omega
    have hka := (key_bounds a).2
    have hkb := (key_bounds b).1
    omega
  · rw [key_eq, key_eq, ha.date_eq hb (by omega)]
    exact Nat.add_lt_add_left (ha.timeKey_lt hb (by omega)) _

/-- **Instants of one kind compare as their counts do.** -/
theorem leP_iff (ha : a.Proper k) (hb : b.Proper k) :
    echsInstantLeP a b = true ↔ a.msecs ≤ b.msecs := by
  have hle : echsInstantLeP a b = true ↔ a.key ≤ b.key := by
    simp [echsInstantLeP, key]
  rw [hle]
  constructor
  · intro h
    by_contra hlt
    have := key_lt hb ha (by omega)
    omega
  · intro h
    rcases Nat.lt_or_ge a.msecs b.msecs with hlt | hge
    · exact (key_lt ha hb hlt).le
    · rw [msecs_inj ha hb (by omega)]

/-- The year by the day number. -/
theorem year_iff (h : a.Proper k) (Y : Nat) : Y ≤ a.y ↔ before fourLen (12 * Y) < a.dayNo := by
  have hm := h.month
  have hd := h.day
  have hno : a.dayNo = before fourLen (monthNo a.y a.m) + a.d := rfl
  have hnext := before_next (y := a.y) hm.1 hm.2
  constructor
  · intro hY
    have := Months.before_le fourLen (show 12 * Y ≤ monthNo a.y a.m by unfold monthNo; omega)
    omega
  · intro hlt
    by_contra hY
    have := Months.before_le fourLen (show monthNo a.y a.m + 1 ≤ 12 * Y by unfold monthNo; omega)
    omega

end Instant.Proper

/-! ### From 1901 to 2099 -/

/-- The milliseconds of these years. -/
def InEra (t : Int) : Prop :=
  86400000 * (before fourLen (12 * 1901) + 1 : Nat) ≤ t ∧
    t < 86400000 * (before fourLen (12 * 2100) + 1 : Nat)

theorem inEra_iff {k : Instant.Kind} {i : Instant} (h : i.Proper k) :
    InEra i.msecs ↔ 1901 ≤ i.y ∧ i.y ≤ 2099 := by
  have hlo := h.year_iff 1901
  have hhi := h.year_iff 2100
  have hlt := h.dayMsecs_lt
  unfold InEra Instant.msecs
  omega

/-- What is in these years can be added up to. -/
theorem InEra.fits {t : Int} (h : InEra t) :
    86400000 ≤ t ∧ t < 86400000 * (before fourLen (12 * 65536) + 1 : Nat) := by
  have hle := Months.before_le fourLen (show 12 * 2100 ≤ 12 * 65536 by decide)
  unfold InEra at h
  omega

/-- **In these years the calendar is the Gregorian one.** -/
theorem era_gregorian {i : Instant} (h1 : 1901 ≤ i.y) (h2 : i.y ≤ 2099) (hm : 1 ≤ i.m)
    (hm' : i.m ≤ 12) :
    ndimGreg i.y i.m = Gregorian.monthDays i.y i.m ∧
      i.dayNo = Gregorian.dayNo i.y i.m i.d + 15 := by
  have hc : CommonRule i.y := fun h4 => ⟨h4, by omega⟩
  have hy := Gregorian.before_year i.y
  have hno : i.dayNo = before fourLen (12 * i.y + (i.m - 1)) + i.d := rfl
  refine ⟨ndimGreg_eq hm hm' fun _ => hc, ?_⟩
  rw [hno, Gregorian.dayNo_eq i.y hm hm', before_four_add i.y (by omega), before_four,
    leapDay_of_commonRule hc]
  omega

/-- The number of an instant's day, such as it can be computed by. -/
theorem Instant.dayNo_closed (i : Instant) (h1 : 1 ≤ i.m) (h12 : i.m ≤ 12) :
    i.dayNo = 365 * i.y + (i.y + 3) / 4 +
      yearDaysBefore (if i.y % 4 = 0 then 1 else 0) (i.m - 1) + i.d := by
  rw [Instant.dayNo, Months.dayNo, monthNo, before_four_add i.y (by omega), before_four]

theorem instantDoy_eq {m : Nat} (h1 : 1 ≤ m) (h12 : m ≤ 12) (leap : Nat) :
    instantDoy.getD m 0 + (if 3 ≤ m then leap else 0) = yearDaysBefore leap (m - 1) := by
  interval_cases m <;> simp [instantDoy, yearDaysBefore]

/-- The days that the difference is made from are those of the count. -/
theorem jan00_doyOf {i : Instant} (h1 : 1901 ≤ i.y) (h2 : i.y ≤ 2099) (hm : 1 ≤ i.m)
    (hm' : i.m ≤ 12) : jan00 i.y + doyOf i + 584769 = i.dayNo := by
  have hby : u32OfInt ((i.y : Int) - 1601) = i.y - 1601 := by
    rw [u32OfInt, wordOfInt]
    omega
  have hcent : (i.y - 1601) / 100 = (i.y - 1601) / 400 + 3 := by omega
  have hj : jan00 i.y + 3 = 365 * (i.y - 1601) + (i.y - 1601) / 4 := by
    rw [jan00, hby, u32_of_lt (by rw [u32_of_lt (by omega)]; omega), u32_of_lt (by omega),
      u32OfInt, wordOfInt]
    omega
  have hd : doyOf i = yearDaysBefore (if i.y % 4 = 0 then 1 else 0) (i.m - 1) + i.d := by
    rw [doyOf, ← instantDoy_eq hm hm']
    by_cases h4 : i.y % 4 = 0
    · by_cases h3 : 3 ≤ i.m
      · simp only [h4, h3, and_self, if_true]
        omega
      · simp [h4, h3]
    · simp [h4]
  have hno : i.dayNo = before fourLen (12 * i.y + (i.m - 1)) + i.d := rfl
  rw [hno, before_four_add i.y (by omega), before_four, hd]
  omega

/-- The times of the day, as the difference takes them. -/
theorem intra_eq {k : Instant.Kind} {a b : Instant} (ha : a.Proper k) (hb : b.Proper k) :
    ((((b.H : Int) - a.H) * 60 + ((b.M : Int) - a.M)) * 60 + ((b.S : Int) - a.S)) * 1000 +
      ((b.ms : Int) - a.ms) = (b.dayMsecs : Int) - a.dayMsecs := by
  have hta := ha.time
  have htb := hb.time
  cases k with
  | allDay =>
      rw [dayMsecs_allDay hta, dayMsecs_allDay htb, hta.1, hta.2.1, hta.2.2.1, hta.2.2.2, htb.1,
        htb.2.1, htb.2.2.1, htb.2.2.2]
      rfl
  | allSec =>
      rw [dayMsecs_allSec hta, dayMsecs_allSec htb, hta.2, htb.2, Instant.secs, Instant.secs]
      omega
  | milli =>
      rw [dayMsecs_milli hta, dayMsecs_milli htb, Instant.secs, Instant.secs]
      omega

/-- **The difference of two instants** is that of their counts, in 32 bits. -/
theorem echsInstantDiff_eq {k : Instant.Kind} {a b : Instant} (ha : a.Proper k)
    (hb : b.Proper k) (hay : 1901 ≤ a.y ∧ a.y ≤ 2099) (hby : 1901 ≤ b.y ∧ b.y ≤ 2099) :
    echsInstantDiff b a = ((b.msecs : Int) - a.msecs) % 4294967296 := by
  have hja := jan00_doyOf hay.1 hay.2 ha.month.1 ha.month.2
  have hjb := jan00_doyOf hby.1 hby.2 hb.month.1 hb.month.2
  have hla := ha.dayMsecs_lt
  have hlb := hb.dayMsecs_lt
  simp only [echsInstantDiff]
  rw [intra_eq ha hb, u32OfInt, wordOfInt, Int.toNat_of_nonneg (Int.emod_nonneg _ (by decide)),
    Instant.msecs, Instant.msecs, msecsPerDay]
  refine congrArg (· % (4294967296 : Int)) ?_
  split
  · omega
  · rw [if_pos (by omega)]
    omega

theorem Instant.Kind.unit_pos (k : Instant.Kind) : 0 < k.unit := by
  cases k <;> decide

/-- Counts of a kind are whole units. -/
theorem unit_dvd_msecs {k : Instant.Kind} {i : Instant} (h : i.Proper k) : k.unit ∣ i.msecs := by
  have ht := h.time
  rw [Instant.msecs]
  cases k with
  | allDay =>
      rw [dayMsecs_allDay ht]
      exact Dvd.intro _ rfl
  | allSec =>
      rw [dayMsecs_allSec ht]
      exact ⟨86400 * i.dayNo + i.secs, by rw [Instant.Kind.unit]; omega⟩
  | milli => exact one_dvd _

/-- **Adding the difference** of two instants of a kind to the first gives the second if and
only if they are less than 2^32 milliseconds apart. -/
theorem echsInstantAdd_diff_iff {k : Instant.Kind} {a b : Instant} (ha : a.Proper k)
    (hb : b.Proper k) (hay : 1901 ≤ a.y ∧ a.y ≤ 2099) (hby : 1901 ≤ b.y ∧ b.y ≤ 2099)
    (hle : echsInstantLeP a b = true) :
    echsInstantAdd a (echsInstantDiff b a) = b ↔ b.msecs - a.msecs < 4294967296 := by
  have hle := (ha.leP_iff hb).1 hle
  have hera := ((inEra_iff ha).2 hay).fits
  have herb := ((inEra_iff hb).2 hby).fits
  rw [echsInstantDiff_eq ha hb hay hby]
  generalize hd : ((b.msecs : Int) - a.msecs) % 4294967296 = d
  have hd0 : 0 ≤ d := by omega
  -- what is added is at most the difference
  have hcut : (k.unit : Int) * Int.tdiv d k.unit ≤ d ∧ 0 ≤ (k.unit : Int) * Int.tdiv d k.unit := by
    rw [Int.tdiv_eq_ediv_of_nonneg hd0]
    have hu : (0 : Int) < k.unit := Int.natCast_pos.2 k.unit_pos
    exact ⟨Int.mul_ediv_self_le hu.ne',
      Int.mul_nonneg hu.le (Int.ediv_nonneg hd0 hu.le)⟩
  obtain ⟨hp, hms⟩ := echsInstantAdd_spec ha d (by omega) (by omega)
  constructor
  · intro heq
    rw [heq] at hms
    omega
  · intro hlt
    have hdiff : d = (b.msecs : Int) - a.msecs := by omega
    have hdvd : (k.unit : Int) ∣ d := by
      rw [hdiff]
      exact Int.dvd_sub (Int.natCast_dvd_natCast.2 (unit_dvd_msecs hb))
        (Int.natCast_dvd_natCast.2 (unit_dvd_msecs ha))
    rw [Int.mul_tdiv_cancel' hdvd] at hms
    exact hp.msecs_inj hb (by omega)

/-- New Year and the second of January 2020. -/
theorem echsInstantAdd_diff_newYear :
    echsInstantAdd (.pack 2020 1 1 255 0 0 0)
        (echsInstantDiff (.pack 2020 1 2 255 0 0 0) (.pack 2020 1 1 255 0 0 0)) =
      .pack 2020 1 2 255 0 0 0 :=
  (echsInstantAdd_diff_iff (k := .allDay) (by decide) (by decide) (by decide) (by decide)
    (by decide)).2 (by
      rw [Instant.msecs, Instant.msecs, Instant.dayNo_closed _ (by decide) (by decide),
        Instant.dayNo_closed _ (by decide) (by decide)]
      decide)

/-- From New Year 2020 to the first of March, sixty days, the difference is ten days. -/
theorem echsInstantAdd_diff_short :
    ¬ ∀ (k : Instant.Kind) (a b : Instant), a.Proper k → b.Proper k →
      1901 ≤ a.y ∧ a.y ≤ 2099 → 1901 ≤ b.y ∧ b.y ≤ 2099 → echsInstantLeP a b = true →
        echsInstantAdd a (echsInstantDiff b a) = b := by
  intro h
  have := h .allDay (.pack 2020 1 1 255 0 0 0) (.pack 2020 3 1 255 0 0 0)
    (by decide) (by decide) (by decide) (by decide) (by decide)
  revert this
  decide

end Echse
