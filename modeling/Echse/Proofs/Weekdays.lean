/-
Weekdays on the calendars of `scale.c`.

Each weekday is that of the day number, so it is the Gregorian one as long as the number is
not negative: a word that has wrapped below 0 is four weekdays on.  The day before number 0
is an exception, its successor wraps back.  An instant has room for years up to 4095, and a
day later than that is stored under an earlier year.
-/
import Echse.Proofs.Rescale

namespace Echse

open Gregorian (dayNo weekday)

/-! ### Gregorian days -/

theorem le_dayNo {y m d : Nat} (h : Gregorian.Valid y m d) : 365 * y < dayNo y m d := by
  obtain ⟨h1, h12, hd1, -⟩ := h
  have hyear := Gregorian.before_year y
  rw [Gregorian.dayNo_eq y h1 h12]
  omega

/-- Every day from the first on has a date. -/
theorem exists_date (n : Nat) : ∃ g : Ymd, Gregorian.Valid g.y g.m g.d ∧ dayNo g.y g.m g.d = n + 1 := by
  induction n with
  | zero => exact ⟨⟨0, 1, 1⟩, by decide, rfl⟩
  | succ n ih =>
      obtain ⟨g, hg, hn⟩ := ih
      refine ⟨⟨_, _, _⟩, Gregorian.valid_next hg, ?_⟩
      rw [Gregorian.dayNo_next hg, hn]

/-- The date of a day number. -/
theorem mjd2g_of_day {g : Ymd} {z : Int} (hg : Gregorian.Valid g.y g.m g.d)
    (hz : (dayNo g.y g.m g.d : Int) = z + 678941) (hlt : z < 2500000) : mjd2g (u32OfInt z) = g := by
  have hle := le_dayNo hg
  rw [show z = (dayNo g.y g.m g.d : Int) - 678941 by omega, ← g2mjd_eq (by omega) hg]
  exact mjd2g_g2mjd (by omega) hg

/-! ### Days of a scale -/

/-- The day a date of a table is. -/
def MonthTable.dayOf (cal : MonthTable) (h : Ymd) : Int :=
  (cal.mt.getD (htIndex cal h.y h.m) 0 : Int) + ((h.d : Int) - 1)

/-- The day a date is, before it becomes a word. -/
def Scale.dayOf (s : Scale) (h : Ymd) : Int :=
  match s with
  | .gregorian => (dayNo h.y h.m h.d : Int) - 678941
  | .hijriUmmulqura => datUmmulqura.dayOf h
  | .hijriDiyanet => datDiyanet.dayOf h
  | _ => match s.hij with
    | some (t, e) => (hijDay t h : Int) + ((epo e : Int) - 2400000)
    | none => 0

/-- A date of a scale's calendar: the Gregorian one from 1901 to 2099, the months covered
by a table, and all of the arithmetic Hijri years. -/
def Scale.ValidDate (s : Scale) (h : Ymd) : Prop :=
  match s with
  | .gregorian => 1901 ≤ h.y ∧ h.y ≤ 2099 ∧ Gregorian.Valid h.y h.m h.d
  | .hijriUmmulqura => datUmmulqura.ValidDate h
  | .hijriDiyanet => datDiyanet.ValidDate h
  | _ => match s.hij with
    | some (t, _) => HijValid t h
    | none => False

/-- What the scales with day numbers have in common: the number is the day as a word, and
the weekday is that of the word after it. -/
structure Scale.Counts (s : Scale) (h : Ymd) : Prop where
  number : scaleToMjd s h = u32OfInt (s.dayOf h)
  wday : echsScaleWday s h.y h.m h.d = u32 (scaleToMjd s h + 1) % 7 + 1
  range : -600000 < s.dayOf h ∧ s.dayOf h < 2500000

theorem MonthTable.dayOf_range {cal : MonthTable} (hf : cal.Fine) {h : Ymd} (hd1 : 1 ≤ h.d)
    (hd : h.d < 64) : -600000 < cal.dayOf h ∧ cal.dayOf h < 2500000 := by
  have hsmall : cal.mt.getD (htIndex cal h.y h.m) 0 < 100000 := by
    by_cases hlt : htIndex cal h.y h.m < cal.mt.length
    · rw [List.getD_eq_getElem _ _ hlt]
      exact hf.small _ (List.getElem_mem hlt)
    · rw [List.getD_eq_default _ _ (Nat.not_lt.mp hlt)]
      decide
  unfold MonthTable.dayOf
  omega

theorem ht2mjd_eq {cal : MonthTable} {h : Ymd} (hv : cal.ValidDate h) (hf : cal.Fine) :
    ht2mjd cal h = u32OfInt (cal.dayOf h) := by
  obtain ⟨h1, h12, ⟨hy, hfirst, hlast⟩, -⟩ := hv
  have hreach := hf.reach
  have hindex : htIndex cal h.y h.m < cal.nm := by
    obtain ⟨i, hi⟩ : ∃ i, (h.y - 1) * 12 + (h.m - 1) = cal.sm + i :=
      ⟨(h.y - 1) * 12 + (h.m - 1) - cal.sm, by omega⟩
    rw [htIndex_eq hy h1 hi (by omega)]
    omega
  rw [ht2mjd, if_neg (Nat.not_le.mpr hindex)]
  rfl

theorem Scale.hij_days {s : Scale} {t : HijTyp} {e : HijEpo} (hs : s.hij = some (t, e)) :
    (∀ h, s.dayOf h = (hijDay t h : Int) + ((epo e : Int) - 2400000)) ∧
      (∀ y m d, echsScaleWday s y m d = wdayHij t e y m d) ∧ ∀ h, s.ValidDate h ↔ HijValid t h := by
  cases s <;> simp only [Scale.hij, Option.some.injEq, Prod.mk.injEq, reduceCtorEq] at hs <;>
    obtain ⟨rfl, rfl⟩ := hs <;> exact ⟨fun _ => rfl, fun _ _ _ => rfl, fun _ => Iff.rfl⟩

theorem hij_counts {s : Scale} {t : HijTyp} {e : HijEpo} {h : Ymd} (hs : s.hij = some (t, e))
    (hy : h.y < 4096) (hv : HijValid t h) : s.Counts h := by
  obtain ⟨hday, hwday, -⟩ := Scale.hij_days hs
  have hmjd := (Scale.hij_spec hs).2.2 h
  refine ⟨?_, ?_, ?_⟩
  · have hlt : hij2mjd t e h < 2 ^ 32 := u32OfInt_lt _
    rw [hmjd, hday, ← u32OfInt_congr (hij2mjd_modEq t e h), u32OfInt_ofNat hlt]
  · rw [hwday, hmjd]
    rfl
  · obtain ⟨-, hhi⟩ := hijDay_bounds t h
    have hdoy := hv.doy_le
    have hepo : 1948084 ≤ epo e ∧ epo e ≤ 1948085 := by cases e <;> decide
    rw [hday]
    omega

/-- The scales other than the Gregorian one count days. -/
theorem Scale.counts {s : Scale} (hs : s ≠ .gregorian) {h : Ymd} (hy : h.y < 4096) (hd : h.d < 64)
    (hv : s.ValidDate h) : s.Counts h := by
  rcases hhij : s.hij with _ | ⟨t, e⟩
  · cases s with
    | gregorian => exact absurd rfl hs
    | hijriUmmulqura =>
        exact ⟨ht2mjd_eq hv fine_ummulqura, rfl, MonthTable.dayOf_range fine_ummulqura hv.2.2.2.1 hd⟩
    | hijriDiyanet =>
        exact ⟨ht2mjd_eq hv fine_diyanet, rfl, MonthTable.dayOf_range fine_diyanet hv.2.2.2.1 hd⟩
    | _ => cases hhij
  · exact hij_counts hhij hy (((Scale.hij_days hhij).2.2 h).mp hv)

/-! ### Weekdays -/

/-- The weekday on a scale is the Gregorian one of the date that the instant is rescaled to. -/
def WdayAgrees (s : Scale) (i : Instant) : Prop :=
  let g := (echsInstantRescale i .gregorian).ymd
  Gregorian.Valid g.y g.m g.d ∧
    echsScaleWday s i.ymd.y i.ymd.m i.ymd.d = weekday (dayNo g.y g.m g.d)

/-- Cutting a year to the twelve bits that an instant has for it moves the date by weeks. -/
def CutsWeeks (g : Ymd) : Prop :=
  Gregorian.Valid (g.y % 4096) g.m g.d ∧ dayNo (g.y % 4096) g.m g.d ≡ dayNo g.y g.m g.d [MOD 7]

/-- A date whose day is not before the one that precedes number 0, and whose Gregorian year
an instant has room for, or can be cut. -/
def Scale.WdayFits (s : Scale) (h : Ymd) : Prop :=
  -1 ≤ s.dayOf h ∧ ∃ g : Ymd, Gregorian.Valid g.y g.m g.d ∧
    (dayNo g.y g.m g.d : Int) = s.dayOf h + 678941 ∧ CutsWeeks g

theorem weekday_eq_iff {m n : Nat} : weekday m = weekday n ↔ n ≡ m [MOD 7] := by
  unfold weekday Nat.ModEq
  omega

/-- The weekday of a word. -/
theorem wday_word {n : Nat} {z : Int} (hz : (n : Int) = z + 678941) (hhi : z < 2500000) :
    u32 (u32OfInt z + 1) % 7 + 1 = if -1 ≤ z then weekday n else (weekday n + 3) % 7 + 1 := by
  rw [u32_u32OfInt_add]
  unfold u32OfInt wordOfInt weekday
  split <;> omega

theorem wdayAgrees_counted {s : Scale} (hs : s ≠ .gregorian) {i : Instant}
    (hscale : echsInstantScale i = s.num) (hv : s.ValidDate i.ymd) :
    WdayAgrees s i ↔ s.WdayFits i.ymd := by
  obtain ⟨hnum, hwday, hlo, hhi⟩ := Scale.counts hs (Nat.mod_lt _ (by decide))
    (Nat.mod_lt _ (by decide)) hv
  obtain ⟨g, hg, hn⟩ := exists_date (s.dayOf i.ymd + 678940).toNat
  have hday : (dayNo g.y g.m g.d : Int) = s.dayOf i.ymd + 678941 := by omega
  have hmjd := mjd2g_of_day hg hday hhi
  have hg31 := hg.2.2.2.trans (Gregorian.monthDays_range g.y g.m).2
  have hyear : g.y ≠ 0 := by
    intro h0
    have hlt := dayNo_lt (by omega) hg
    omega
  have hymd : (echsInstantRescale i .gregorian).ymd = ⟨g.y % 4096, g.m, g.d⟩ := by
    have hof : Scale.ofNum s.num = some s := by cases s <;> rfl
    rw [echsInstantRescale_eq hscale hof hs]
    simp only [scaleOfMjd, hnum, hmjd, if_neg hyear]
    rw [Instant.ymd, onDate_y, onDate_m, onDate_d]
    have h12 := hg.2.1
    simp only [Ymd.mk.injEq]
    refine ⟨?_, ?_, ?_⟩ <;> omega
  have huniq : ∀ g' : Ymd, Gregorian.Valid g'.y g'.m g'.d →
      (dayNo g'.y g'.m g'.d : Int) = s.dayOf i.ymd + 678941 → g' = g := by
    intro g' hg' hday'
    obtain ⟨hy, hm, hd⟩ := Gregorian.dayNo_inj hg' hg (by omega)
    cases g'
    cases g
    simp_all
  unfold WdayAgrees Scale.WdayFits
  rw [hymd, hwday, hnum, wday_word hday hhi]
  by_cases hz : -1 ≤ s.dayOf i.ymd
  · rw [if_pos hz]
    constructor
    · rintro ⟨hcut, heq⟩
      exact ⟨hz, g, hg, hday, hcut, weekday_eq_iff.mp heq⟩
    · rintro ⟨-, g', hg', hday', hcut⟩
      obtain rfl := huniq g' hg' hday'
      exact ⟨hcut.1, weekday_eq_iff.mpr hcut.2⟩
  · -- so early a date fits an instant
    have hle := le_dayNo hg
    have hsmall : g.y % 4096 = g.y := Nat.mod_eq_of_lt (by omega)
    rw [if_neg hz, hsmall]
    refine iff_of_false ?_ fun h => hz h.1
    rintro ⟨-, heq⟩
    have hrange : 1 ≤ weekday (dayNo g.y g.m g.d) ∧ weekday (dayNo g.y g.m g.d) ≤ 7 := by
      unfold weekday
      omega
    dsimp only at heq
    omega

theorem wdayAgrees_gregorian {i : Instant} (hscale : echsInstantScale i = Scale.gregorian.num)
    (hv : Scale.gregorian.ValidDate i.ymd) :
    WdayAgrees .gregorian i ∧ Scale.gregorian.WdayFits i.ymd := by
  obtain ⟨hlo, hhi, hg⟩ := hv
  have hle := le_dayNo hg
  have hymd : (echsInstantRescale i .gregorian).ymd = i.ymd := by
    obtain ⟨hy, hm, hd, -⟩ := i.fits
    simp only [echsInstantRescale, hscale, if_true, Instant.ymd, echsInstantAttachTzob,
      echsInstantAttachScale, echsInstantDetachScale, echsInstantDetachTzob, echsInstantTzob,
      Instant.pack, Scale.num, Ymd.mk.injEq]
    refine ⟨?_, ?_, ?_⟩ <;> omega
  have h31 := hg.2.2.2.trans (Gregorian.monthDays_range i.ymd.y i.ymd.m).2
  constructor
  · unfold WdayAgrees
    rw [hymd]
    exact ⟨hg, wdayGreg_eq (by omega) (by omega) hg.1 hg.2.1 (by omega)⟩
  · have hsmall : i.ymd.y % 4096 = i.ymd.y := Nat.mod_eq_of_lt (by omega)
    refine ⟨?_, i.ymd, hg, ?_, ?_⟩
    · change -1 ≤ (dayNo i.ymd.y i.ymd.m i.ymd.d : Int) - 678941
      omega
    · change _ = (dayNo i.ymd.y i.ymd.m i.ymd.d : Int) - 678941 + 678941
      omega
    · unfold CutsWeeks
      rw [hsmall]
      exact ⟨hg, Nat.ModEq.refl _⟩

/-- **The weekday on a scale is the Gregorian one** of the same day, from the day before
number 0 on, as long as the Gregorian year fits an instant or is cut by whole weeks. -/
theorem echsScaleWday_iff {s : Scale} {i : Instant} (hscale : echsInstantScale i = s.num)
    (hv : s.ValidDate i.ymd) : WdayAgrees s i ↔ s.WdayFits i.ymd := by
  by_cases hs : s = .gregorian
  · subst hs
    obtain ⟨hagrees, hfits⟩ := wdayAgrees_gregorian hscale hv
    exact iff_of_true hagrees hfits
  · exact wdayAgrees_counted hs hscale hv

theorem echsScaleWday_iff_millennium :
    WdayAgrees .gregorian (.pack 2000 1 1 255 0 0 0) ↔
      Scale.gregorian.WdayFits (Instant.pack 2000 1 1 255 0 0 0).ymd :=
  echsScaleWday_iff rfl (by unfold Scale.ValidDate; decide)

/-- The first day of the year 1200 is Thursday, 3 November 1785. -/
theorem echsScaleWday_early : ¬ ∀ (s : Scale) (i : Instant), echsInstantScale i = s.num →
    s.ValidDate i.ymd → WdayAgrees s i := by
  intro hall
  have hexpected := (hall .hijriIC (.pack (1200 + 2 * 4096) 1 1 255 0 0 0) rfl
    (show HijValid .I _ by decide)).2
  rw [show (echsInstantRescale (.pack (1200 + 2 * 4096) 1 1 255 0 0 0) .gregorian).ymd = ⟨1785, 11, 3⟩
    by decide, Gregorian.dayNo_closed 1785 (by decide) (by decide) 3] at hexpected
  revert hexpected
  decide

end Echse
