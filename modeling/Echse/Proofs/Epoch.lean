/-
Instants and epoch seconds.

`__epoch_to_inst` is right: it gives the date of the calendar.  `__inst_to_epoch` counts
years that begin in March too, but by the number of the calendar's year, so January and
February come out a year late.  The daemon does not use it: its own `instant_to_tstamp` is
right from 2001 to 2099.
-/
import Echse.Tzob
import Echse.Echsd
import Echse.Lib.Gregorian

namespace Echse

open Gregorian (leapDay yearDaysBefore monthDays)
open Months (before)

/-! ### Years that begin in March -/

theorem marFebDays_eq {n : Nat} (h : n < 1000) : marFebDays n = 365 * n + n / 4 := by
  rw [marFebDays, u32, u32]
  omega

/-- The year a day is in, and which day of it that is. -/
theorem marFebYear_spec {d : Nat} (h1 : 366 ≤ d) (h2 : d < 60000) :
    marFebYear d < 165 ∧ marFebDays (marFebYear d) < d ∧
      d ≤ marFebDays (marFebYear d) + 365 + if marFebYear d % 4 = 3 then 1 else 0 := by
  have hq : d / 365 < 165 := by omega
  have hq0 : 1 ≤ d / 365 := by omega
  have hlo := Nat.div_mul_le_self d 365
  have hhi := Nat.lt_div_mul_add (a := d) (show 0 < 365 by decide)
  rw [marFebYear]
  generalize d / 365 = q at *
  rw [marFebDays_eq (by omega)]
  split
  · have hr : u32OfInt ((q : Int) - 1) = q - 1 := by
      rw [u32OfInt, wordOfInt]
      omega
    rw [hr, marFebDays_eq (by omega)]
    split <;> omega
  · rw [marFebDays_eq (by omega)]
    split <;> omega

/-- A day of the year from March on: its month by the calendar and its day of the month.
`m` is what the month is counted as, from 1 for March. -/
structure MarFeb (doy m d : Nat) : Prop where
  day : 1 ≤ d
  sum : marFebYday.getD m 0 + d = doy
  month : (3 ≤ m ∧ m ≤ 12 ∧ d ≤ monthDays 1 m) ∨ (m = 1 ∧ d ≤ 31) ∨
    (m = 2 ∧ (d ≤ 28 ∨ (d = 29 ∧ doy = 366)))

instance (doy m d : Nat) : Decidable (MarFeb doy m d) :=
  decidable_of_iff (1 ≤ d ∧ marFebYday.getD m 0 + d = doy ∧
      ((3 ≤ m ∧ m ≤ 12 ∧ d ≤ monthDays 1 m) ∨ (m = 1 ∧ d ≤ 31) ∨
        (m = 2 ∧ (d ≤ 28 ∨ (d = 29 ∧ doy = 366)))))
    ⟨fun ⟨h1, h2, h3⟩ => ⟨h1, h2, h3⟩, fun ⟨h1, h2, h3⟩ => ⟨h1, h2, h3⟩⟩

theorem marFebMd_all : ∀ doy ∈ List.range' 1 366,
    MarFeb doy (monMarFeb.getD (marFebMd doy).1 0) (marFebMd doy).2 ∧
      ((marFebMd doy).1 ≤ 10 ↔ 3 ≤ monMarFeb.getD (marFebMd doy).1 0) := by decide +kernel

/-- **The Freundt method is the table that goes the other way.** -/
theorem marFebMd_spec {doy : Nat} (h1 : 1 ≤ doy) (h2 : doy ≤ 366) :
    MarFeb doy (monMarFeb.getD (marFebMd doy).1 0) (marFebMd doy).2 ∧
      ((marFebMd doy).1 ≤ 10 ↔ 3 ≤ monMarFeb.getD (marFebMd doy).1 0) :=
  marFebMd_all doy (by rw [List.mem_range'_1]; omega)

/-! ### The calendar -/

theorem leapDay_of_era {y : Nat} (h1 : 1948 ≤ y) (h2 : y < 2100) :
    leapDay y = if y % 4 = 0 then 1 else 0 := by
  have h := Gregorian.leapDay_eq y
  split at h <;> split at h <;> split at h <;> simp_all <;> omega

/-- The days before a year of our time. -/
theorem before_era {y : Nat} (h1 : 1948 ≤ y) (h2 : y < 2100) :
    before Gregorian.len (12 * y) + leapDay y + 14 = 365 * y + y / 4 := by
  have h := Gregorian.before_year_end y
  omega

theorem dayNo_1970 : Gregorian.dayNo 1970 1 1 = 719529 := by
  have hb := before_era (y := 1970) (by decide) (by decide)
  have hl : leapDay 1970 = 0 := by decide
  rw [Gregorian.dayNo_eq 1970 (by decide) (by decide), show yearDaysBefore _ (1 - 1) = 0 from rfl]
  omega

/-- The months in the order of a year that begins in March. -/
theorem yearDaysBefore_marFeb {m : Nat} (h3 : 3 ≤ m) (h12 : m ≤ 12) (leap : Nat) :
    yearDaysBefore leap (m - 1) = 59 + leap + marFebYday.getD m 0 := by
  interval_cases m <;> simp [yearDaysBefore, marFebYday] <;> omega

theorem monthDays_feb (y : Nat) : monthDays y 2 = 28 + leapDay y := by
  by_cases h : Gregorian.Leap y <;> simp [monthDays, leapDay, h]

/-- **A day of a year that begins in March has its number in the calendar.** -/
theorem dayNo_marFeb {n doy m d : Nat} (hn : n < 152) (h : MarFeb doy m d)
    (hdoy : doy = 366 → n % 4 = 3) (hy : n + 1948 + (if 3 ≤ m then 0 else 1) < 2100) :
    Gregorian.Valid (n + 1948 + if 3 ≤ m then 0 else 1) m d ∧
      Gregorian.dayNo (n + 1948 + if 3 ≤ m then 0 else 1) m d + 7977 =
        Gregorian.dayNo 1970 1 1 + (365 * n + n / 4 + doy) := by
  obtain ⟨hd, hsum, hm⟩ := h
  have hl := leapDay_of_era (y := n + 1948 + if 3 ≤ m then 0 else 1) (by omega) hy
  have hb := before_era (y := n + 1948 + if 3 ≤ m then 0 else 1) (by omega) hy
  rw [dayNo_1970]
  rcases hm with ⟨h3, h12, hdm⟩ | ⟨rfl, hdm⟩ | ⟨rfl, hdm⟩
  · simp only [h3, if_true, Nat.add_zero] at hl hb hy ⊢
    have hlen : monthDays (n + 1948) m = monthDays 1 m := by
      unfold monthDays
      split <;> omega
    refine ⟨⟨by omega, h12, hd, by omega⟩, ?_⟩
    rw [Gregorian.dayNo_eq _ (by omega) h12, yearDaysBefore_marFeb h3 h12]
    omega
  · simp only [show ¬(3 ≤ 1) by decide, if_false] at hl hb hy ⊢
    have hsum' : 306 + d = doy := hsum
    refine ⟨⟨by omega, by omega, hd, hdm⟩, ?_⟩
    rw [Gregorian.dayNo_eq _ (by omega) (by omega), show yearDaysBefore _ (1 - 1) = 0 from rfl]
    split at hl <;> omega
  · simp only [show ¬(3 ≤ 2) by decide, if_false] at hl hb hy ⊢
    have hsum' : 337 + d = doy := hsum
    have hfeb : d ≤ monthDays (n + 1948 + 1) 2 := by
      rw [monthDays_feb]
      split at hl <;> omega
    refine ⟨⟨by omega, by omega, hd, hfeb⟩, ?_⟩
    rw [Gregorian.dayNo_eq _ (by omega) (by omega), show yearDaysBefore _ (2 - 1) = 31 from rfl]
    split at hl <;> omega

/-! ### The functions -/

/-- A year, a day of it and a time of the day: an epoch second taken apart. -/
structure Broken (t n doy m d : Nat) : Prop where
  date : MarFeb doy m d
  year : n < 152
  leap : doy = 366 → n % 4 = 3
  sum : 365 * n + n / 4 + doy = t / 86400 + 7977
  era : n + 1948 + (if 3 ≤ m then 0 else 1) < 2100

theorem epochToInst_broken {t : Nat} (h : t < 4102444800) :
    ∃ n doy m d : Nat, Broken t n doy m d ∧
      epochToInst t = .pack (n + 1948 + if 3 ≤ m then 0 else 1) m d
        (t % 86400 / 60 / 60) (t % 86400 / 60 % 60) (t % 86400 % 60) echsAllDay := by
  have hd : t / 86400 < 47482 := by omega
  obtain ⟨hn, hlo, hhi⟩ := marFebYear_spec (d := t / 86400 + 7977) (by omega) (by omega)
  have hu : u32 (t / 86400 + 7977) = t / 86400 + 7977 := by
    rw [u32]
    omega
  have hs : u32 (t % 86400) = t % 86400 := by
    rw [u32]
    omega
  have hu' : u32OfInt (((t / 86400 + 7977 : Nat) : Int) - marFebDays (marFebYear (t / 86400 + 7977)))
      = t / 86400 + 7977 - marFebDays (marFebYear (t / 86400 + 7977)) := by
    rw [u32OfInt, wordOfInt]
    omega
  rw [epochToInst, hu, hs, hu']
  rw [marFebDays_eq (by omega)] at hlo hhi ⊢
  generalize marFebYear (t / 86400 + 7977) = n at *
  generalize hdoy : t / 86400 + 7977 - (365 * n + n / 4) = doy
  obtain ⟨hmf, hmon⟩ := marFebMd_spec (show 1 ≤ doy by omega) (by split at hhi <;> omega)
  generalize monMarFeb.getD (marFebMd doy).1 0 = m at *
  generalize (marFebMd doy).2 = d at *
  have hlate : ¬(3 ≤ m) → 306 < doy := by
    obtain ⟨hd1, hsum, hm⟩ := hmf
    rcases hm with ⟨h3, -, -⟩ | ⟨rfl, -⟩ | ⟨rfl, -⟩
    · omega
    · have hsum' : 306 + d = doy := hsum
      omega
    · have hsum' : 337 + d = doy := hsum
      omega
  refine ⟨n, doy, m, d, ⟨hmf, by omega, ?_, by omega, ?_⟩, ?_⟩
  · intro h366
    split at hhi <;> omega
  · by_cases h3 : 3 ≤ m
    · rw [if_pos h3]
      omega
    · have h306 := hlate h3
      rw [if_neg h3]
      omega
  · by_cases h3 : 3 ≤ m
    · rw [if_pos h3, if_neg (by omega)]
    · rw [if_neg h3, if_pos (by omega)]

/-- The count of days that the way back starts from, years counted by the calendar's. -/
theorem instToEpoch_pack {t n b doy m d : Nat} (h : Broken t n doy m d)
    (hb : b < 153) :
    instToEpoch (.pack (b + 1948) m d
        (t % 86400 / 60 / 60) (t % 86400 / 60 % 60) (t % 86400 % 60) echsAllDay) =
      u32OfInt (((365 * b + b / 4 + doy : Nat) - 7977 : Int) * 86400 + (t % 86400 : Nat)) := by
  obtain ⟨hd, hsum, hm⟩ := h.date
  have hm12 : m ≤ 12 ∧ d ≤ 31 := by
    rcases hm with ⟨-, h12, hdm⟩ | ⟨rfl, hdm⟩ | ⟨rfl, hdm⟩
    · have hr := (Gregorian.monthDays_range 1 m).2
      omega
    · omega
    · omega
  have hj : marFebDays b = 365 * b + b / 4 := marFebDays_eq (by omega)
  have hby : u32OfInt (((b + 1948 : Nat) : Int) - 1948) = b := by
    rw [u32OfInt, wordOfInt]
    omega
  rw [marFebDays] at hj
  have hy16 : (b + 1948) % 65536 = b + 1948 := by omega
  have hm8 : m % 256 = m := by omega
  have hd8 : d % 256 = d := by omega
  have hH : t % 86400 / 60 / 60 % 256 ≤ 24 := by omega
  simp only [instToEpoch, Instant.pack, hy16, hm8, hd8, hby, hj, hm12.1, hH, if_true, hsum]
  refine congrArg u32OfInt ?_
  omega

/-- A second and some days later, in a word. -/
theorem u32OfInt_days {t e : Nat} (ht : t < 4102444800) (he : e ≤ 366) :
    u32OfInt ((t + 86400 * e : Nat) : Int) = t ↔ e = 0 := by
  rw [u32OfInt, wordOfInt, ← Int.natCast_mod, Int.toNat_natCast, Nat.mod_eq_of_lt (by omega)]
  omega

/-- **The way back finds the second from March on, and not in January and February.** -/
theorem instToEpoch_broken {t n doy m d : Nat} (ht : t < 4102444800) (h : Broken t n doy m d) :
    instToEpoch (.pack (n + 1948 + if 3 ≤ m then 0 else 1) m d
        (t % 86400 / 60 / 60) (t % 86400 / 60 % 60) (t % 86400 % 60) echsAllDay) = t ↔
      3 ≤ m := by
  have hn := h.year
  have hsum := h.sum
  have hsec (b e : Nat) (hb : 365 * b + b / 4 + doy = t / 86400 + 7977 + e) :
      (((365 * b + b / 4 + doy : Nat) - 7977 : Int) * 86400 + (t % 86400 : Nat)) =
        (t + 86400 * e : Nat) := by
    have hdm := Nat.div_add_mod t 86400
    omega
  by_cases h3 : 3 ≤ m
  · rw [if_pos h3, Nat.add_zero, instToEpoch_pack h (by omega), hsec n 0 hsum,
      u32OfInt_days ht (by decide)]
    exact iff_of_true rfl h3
  · have hlate : ∃ e, 0 < e ∧ e ≤ 366 ∧
        365 * (n + 1) + (n + 1) / 4 + doy = t / 86400 + 7977 + e :=
      ⟨365 + ((n + 1) / 4 - n / 4), by omega, by omega, by omega⟩
    obtain ⟨e, he0, he, hsum'⟩ := hlate
    rw [if_neg h3, show n + 1948 + 1 = n + 1 + 1948 by omega, instToEpoch_pack h (by omega),
      hsec (n + 1) e hsum', u32OfInt_days ht he]
    exact iff_of_false (by omega) h3

/-- **Seconds and instants**: the round trip is right from March to December. -/
theorem instToEpoch_epochToInst_iff (t : Nat) (h : t < 4102444800) :
    instToEpoch (epochToInst t) = t ↔
      ∃ y m d, Gregorian.Valid y m d ∧ 3 ≤ m ∧
        Gregorian.dayNo y m d = Gregorian.dayNo 1970 1 1 + t / 86400 := by
  obtain ⟨n, doy, m, d, hb, heq⟩ := epochToInst_broken h
  obtain ⟨hv, hday⟩ := dayNo_marFeb hb.year hb.date hb.leap hb.era
  have hsum := hb.sum
  rw [heq, instToEpoch_broken h hb]
  constructor
  · intro h3
    exact ⟨_, m, d, hv, h3, by omega⟩
  · rintro ⟨y', m', d', hv', h3, hday'⟩
    have hinj := Gregorian.dayNo_inj hv hv' (by omega)
    omega

/-- Christmas of 2023. -/
theorem instToEpoch_epochToInst_christmas :
    instToEpoch (epochToInst 1703462400) = 1703462400 :=
  (instToEpoch_epochToInst_iff 1703462400 (by decide)).mpr
    ⟨2023, 12, 25, by decide, by decide, by
      rw [dayNo_1970, Gregorian.dayNo_closed 2023 (by decide) (by decide)]
      decide⟩

/-- The epoch itself comes back as the first of January 1971. -/
theorem instToEpoch_epoch_late :
    ¬ ∀ t < 4102444800, instToEpoch (epochToInst t) = t :=
  fun h => absurd (h 0 (by decide)) (by decide)

/-! ### The daemon's time stamps -/

/-- The second a year begins with. -/
def newYear (y : Nat) : Nat := 86400 * (Gregorian.dayNo y 1 1 - Gregorian.dayNo 1970 1 1)

theorem dayNo_newYear (y : Nat) : Gregorian.dayNo y 1 1 = before Gregorian.len (12 * y) + 1 := by
  rw [Gregorian.dayNo_eq y (by decide) (by decide)]
  rfl

/-- A day is in a year when it is not before its first day. -/
theorem year_of_dayNo {y z m d : Nat} (h : Gregorian.Valid z m d) :
    Gregorian.dayNo y 1 1 ≤ Gregorian.dayNo z m d ↔ y ≤ z := by
  obtain ⟨h1, h12, hd1, hd⟩ := h
  rw [← Gregorian.len_monthNo h1 h12] at hd
  have hlt := @Months.dayNo_lt_iff Gregorian.len _ _ _ _ ⟨hd1, hd⟩
    (show Months.Valid Gregorian.len (Gregorian.monthNo y 1) 1 from
      ⟨le_rfl, by
        rw [Gregorian.len_monthNo le_rfl (by decide)]
        exact le_trans (by decide) (Gregorian.monthDays_range y 1).1⟩)
  unfold Gregorian.monthNo at hlt
  rw [← not_lt, Gregorian.dayNo, Gregorian.dayNo, Gregorian.monthNo, Gregorian.monthNo, hlt]
  omega

theorem monYdayTstamp_eq {m : Nat} (h1 : 1 ≤ m) (h12 : m ≤ 12) (leap : Nat) :
    monYdayTstamp.getD m 0 + (if 3 ≤ m then leap else 0) = yearDaysBefore leap (m - 1) := by
  interval_cases m <;> simp [monYdayTstamp, yearDaysBefore]

/-- **The time stamp of a date and a time of day**, from 2001 to 2099. -/
theorem instantToTstamp_date {i : Instant} (h1 : 2001 ≤ i.y) (h2 : i.y < 2100)
    (h : Gregorian.Valid i.y i.m i.d) :
    instantToTstamp i = 86400 * (Gregorian.dayNo i.y i.m i.d - Gregorian.dayNo 1970 1 1) +
      if echsInstantAllDayP i then 0 else (i.H * 60 + i.M) * 60 + i.S := by
  obtain ⟨hm1, hm12, hd1, hd⟩ := h
  have hd31 := (Gregorian.monthDays_range i.y i.m).2
  have hl := leapDay_of_era (by omega) h2
  have hb := before_era (by omega) h2
  have hday := Gregorian.dayNo_eq i.y hm1 hm12 i.d
  have hyd := monYdayTstamp_eq hm1 hm12 (leapDay i.y)
  have hyd' : monYdayTstamp.getD i.m 0 + i.d +
      (if i.y % 4 = 0 ∧ 3 ≤ i.m then 1 else 0) = yearDaysBefore (leapDay i.y) (i.m - 1) + i.d := by
    rw [← hyd, hl]
    by_cases h4 : i.y % 4 = 0
    · by_cases h3 : 3 ≤ i.m
      · simp only [h4, h3, and_self, if_true]
        omega
      · simp [h4, h3]
    · simp [h4]
  have hle : monYdayTstamp.getD i.m 0 ≤ 334 := by
    generalize i.m = m at hm1 hm12
    interval_cases m <;> simp [monYdayTstamp]
  have hyr : u32OfInt ((i.y : Int) - 2001) = i.y - 2001 := by
    rw [u32OfInt, wordOfInt]
    omega
  rw [instantToTstamp]
  simp only [hyr]
  rw [u32_of_lt (n := 365 * (i.y - 2001) + _) (by omega), Nat.add_assoc _ (monYdayTstamp.getD i.m 0),
    Nat.add_assoc _ (monYdayTstamp.getD i.m 0 + i.d), hyd', u32_of_lt (by split at hyd' <;> omega),
    hday, dayNo_1970]
  split at hl <;> split <;> omega

theorem instantToTstamp_pack {y m d H M S : Nat} (h1 : 2001 ≤ y) (h2 : y < 2100)
    (h : Gregorian.Valid y m d) (hH : H < 24) (hM : M < 60) (hS : S < 60) (ms : Nat) :
    instantToTstamp (.pack y m d H M S ms) =
      86400 * (Gregorian.dayNo y m d - Gregorian.dayNo 1970 1 1) + ((H * 60 + M) * 60 + S) := by
  have hd31 := (Gregorian.monthDays_range y m).2
  have hm12 := h.2.1
  have hd := h.2.2.2
  have hall : echsInstantAllDayP (.pack y m d H M S ms) = false := by
    simp only [echsInstantAllDayP, Instant.pack, echsAllDay, beq_eq_false_iff_ne]
    omega
  have hy : (Instant.pack y m d H M S ms).y = y := Nat.mod_eq_of_lt (by omega)
  have hm : (Instant.pack y m d H M S ms).m = m := Nat.mod_eq_of_lt (by omega)
  have hd8 : (Instant.pack y m d H M S ms).d = d := Nat.mod_eq_of_lt (by omega)
  have hH8 : (Instant.pack y m d H M S ms).H = H := Nat.mod_eq_of_lt (by omega)
  have hM8 : (Instant.pack y m d H M S ms).M = M := Nat.mod_eq_of_lt (by omega)
  have hS6 : (Instant.pack y m d H M S ms).S = S := Nat.mod_eq_of_lt (by omega)
  rw [instantToTstamp_date (by rw [hy]; exact h1) (by rw [hy]; exact h2) (by rw [hy, hm, hd8]; exact h),
    hall, hy, hm, hd8, hH8, hM8, hS6]
  rfl

theorem newYear_2001 : newYear 2001 = 978307200 := by
  have := before_era (y := 2001) (by decide) (by decide)
  have hl : leapDay 2001 = 0 := by decide
  rw [newYear, dayNo_1970, dayNo_newYear]
  omega

theorem newYear_2100 : newYear 2100 = 4102444800 := by
  have := Gregorian.before_year 2100
  rw [newYear, dayNo_1970, dayNo_newYear]
  omega

/-- **The daemon's time stamp of an epoch second is this second**, from 2001 to 2099. -/
theorem instantToTstamp_epochToInst (t : Nat) (h1 : newYear 2001 ≤ t) (h2 : t < newYear 2100) :
    instantToTstamp (epochToInst t) = t := by
  have h2' := newYear_2100
  obtain ⟨n, doy, m, d, hb, heq⟩ := epochToInst_broken (t := t) (by omega)
  obtain ⟨hv, hday⟩ := dayNo_marFeb hb.year hb.date hb.leap hb.era
  have hsum := hb.sum
  have hyear := (year_of_dayNo (y := 2001) hv).1 (by
    rw [newYear] at h1
    omega)
  rw [heq, instantToTstamp_pack hyear hb.era hv (by omega) (by omega) (by omega)]
  omega

/-- The last second of 2099. -/
theorem instantToTstamp_epochToInst_late :
    instantToTstamp (epochToInst 4102444799) = 4102444799 :=
  instantToTstamp_epochToInst 4102444799 (by rw [newYear_2001]; decide)
    (by rw [newYear_2100]; decide)

end Echse
