/-
Rescaling between the Gregorian calendar and the tables in `scale.c`.

A day within a table becomes a date of it and comes back.  Days after the table, and those
before the day number 0, have no date.  The days in between that come before the table get
one all the same, and months that the table does not have become a Gregorian date.
-/
import Mathlib.Data.List.TakeWhile
import Echse.Proofs.DayNumbers

namespace Echse

open Gregorian (dayNo)

/-! ### The scan over the transitions -/

theorem getD_of_lt_takeWhile {l : List Nat} {d i : Nat} (h : i < (l.takeWhile (· ≤ d)).length) :
    l.getD i 0 ≤ d := by
  induction l generalizing i with
  | nil => simp at h
  | cons x l ih =>
      by_cases hx : x ≤ d
      · rw [List.takeWhile_cons_of_pos (by simpa using hx), List.length_cons] at h
        cases i with
        | zero => exact hx
        | succ i => exact ih (Nat.lt_of_succ_lt_succ h)
      · rw [List.takeWhile_cons_of_neg (by simpa using hx)] at h
        exact absurd h (Nat.not_lt_zero i)

theorem lt_getD_takeWhile {l : List Nat} {d : Nat} (h : (l.takeWhile (· ≤ d)).length < l.length) :
    d < l.getD (l.takeWhile (· ≤ d)).length 0 := by
  induction l with
  | nil => simp at h
  | cons x l ih =>
      by_cases hx : x ≤ d
      · rw [List.takeWhile_cons_of_pos (by simpa using hx)] at h ⊢
        exact ih (Nat.lt_of_succ_lt_succ h)
      · rw [List.takeWhile_cons_of_neg (by simpa using hx)]
        exact Nat.not_le.mp hx

/-- What is known of the tables: how far they reach, and that the last transition is the
latest. -/
structure MonthTable.Fine (cal : MonthTable) : Prop where
  sm : 12 ≤ cal.sm
  reach : cal.sm + cal.nm < 40000
  some : 0 < cal.nm
  small : ∀ x ∈ cal.mt, x < 100000
  last : ∀ x ∈ cal.mt, x ≤ cal.mt.getD (cal.nm - 1) 0
  /-- No month is longer than a date has room for. -/
  months : ∀ p ∈ cal.mt.zip cal.mt.tail, p.2 ≤ p.1 + 31
  /-- The days from the last transition on have a Gregorian date. -/
  year : ∀ k < 30, 0 < (mjd2g (cal.mt.getD (cal.nm - 1) 0 + k)).y ∧
    (mjd2g (cal.mt.getD (cal.nm - 1) 0 + k)).y < 4096

theorem fine_ummulqura : datUmmulqura.Fine := by
  refine ⟨?_, ?_, ?_, ?_, ?_, ?_, ?_⟩ <;> decide +kernel

theorem fine_diyanet : datDiyanet.Fine := by
  refine ⟨?_, ?_, ?_, ?_, ?_, ?_, ?_⟩ <;> decide +kernel

theorem MonthTable.Fine.month_le {cal : MonthTable} (hf : cal.Fine) {k : Nat} (hk : k + 1 < cal.nm) :
    cal.mt.getD (k + 1) 0 ≤ cal.mt.getD k 0 + 31 := by
  have hlen : k + 1 < cal.mt.length := hk
  have hzip : k < (cal.mt.zip cal.mt.tail).length := by
    rw [List.length_zip, List.length_tail]
    omega
  have hmem := hf.months _ (List.getElem_mem hzip)
  rw [List.getElem_zip, List.getElem_tail] at hmem
  rwa [List.getD_eq_getElem _ _ hlen, List.getD_eq_getElem _ _ (by omega)]

/-- The table of a scale that has one. -/
def Scale.table : Scale → Option MonthTable
  | .hijriUmmulqura => some datUmmulqura
  | .hijriDiyanet => some datDiyanet
  | _ => none

theorem Scale.table_spec {s : Scale} {cal : MonthTable} (h : s.table = some cal) :
    cal.Fine ∧ s ≠ .gregorian ∧ Scale.ofNum s.num = some s ∧ scaleToMjd s = ht2mjd cal ∧
      scaleOfMjd s = mjd2ht cal := by
  cases s <;> simp only [Scale.table, Option.some.injEq, reduceCtorEq] at h
  · exact h ▸ ⟨fine_ummulqura, by decide, rfl, rfl, rfl⟩
  · exact h ▸ ⟨fine_diyanet, by decide, rfl, rfl, rfl⟩

/-! ### The date in an instant -/

/-- The date of an instant, without what else is kept in its fields. -/
def Instant.ymd (i : Instant) : Ymd := ⟨i.y % 4096, i.m % 16, i.d % 64⟩

/-- An instant at another date, on a scale. -/
def Instant.onDate (i : Instant) (s : Scale) (g : Ymd) : Instant :=
  let tmp := echsInstantDetachScale (echsInstantDetachTzob i)
  echsInstantAttachTzob (echsInstantAttachScale (Instant.pack g.y g.m g.d tmp.H tmp.M tmp.S tmp.ms) s)
    (echsInstantTzob i)

theorem Scale.num_lt (s : Scale) : s.num < 16 := by
  cases s <;> decide

theorem Scale.ofNum_eq_some {n : Nat} {s : Scale} (h : Scale.ofNum n = some s) : n = s.num := by
  unfold Scale.ofNum at h
  split at h <;> cases h <;> rfl

theorem Scale.num_inj {s s' : Scale} (h : s.num = s'.num) : s = s' := by
  cases s <;> cases s' <;> first | rfl | cases h

theorem onDate_y (i : Instant) (s : Scale) (g : Ymd) :
    (i.onDate s g).y = g.y % 4096 + s.num * 4096 := by
  have hs := s.num_lt
  simp only [Instant.onDate, echsInstantAttachTzob, echsInstantAttachScale, Instant.pack]
  omega

theorem onDate_m (i : Instant) (s : Scale) (g : Ymd) :
    (i.onDate s g).m = g.m % 16 + i.m / 16 * 16 := by
  have hm := i.fits.2.1
  have hd := i.fits.2.2.1
  simp only [Instant.onDate, echsInstantAttachTzob, echsInstantAttachScale, echsInstantTzob,
    Instant.pack]
  omega

theorem onDate_d (i : Instant) (s : Scale) (g : Ymd) :
    (i.onDate s g).d = g.d % 64 + i.d / 64 * 64 := by
  have hm := i.fits.2.1
  have hd := i.fits.2.2.1
  simp only [Instant.onDate, echsInstantAttachTzob, echsInstantAttachScale, echsInstantTzob,
    Instant.pack]
  omega

theorem onDate_time (i : Instant) (s : Scale) (g : Ymd) :
    (i.onDate s g).H = i.H ∧ (i.onDate s g).M = i.M ∧ (i.onDate s g).S = i.S ∧
      (i.onDate s g).ms = i.ms := by
  obtain ⟨-, -, -, hH, hM, hS, hms⟩ := i.fits
  simp only [Instant.onDate, echsInstantAttachTzob, echsInstantAttachScale,
    echsInstantDetachScale, echsInstantDetachTzob, Instant.pack]
  omega

/-- The fields that a date may take. -/
def Ymd.Fits (g : Ymd) : Prop := g.y < 4096 ∧ g.m < 16 ∧ g.d < 64

theorem ymd_onDate (i : Instant) (s : Scale) {g : Ymd} (hg : g.Fits) : (i.onDate s g).ymd = g := by
  obtain ⟨hy, hm, hd⟩ := hg
  rw [Instant.ymd, onDate_y, onDate_m, onDate_d, show (g.y % 4096 + s.num * 4096) % 4096 = g.y by omega,
    show (g.m % 16 + i.m / 16 * 16) % 16 = g.m by omega,
    show (g.d % 64 + i.d / 64 * 64) % 64 = g.d by omega]

theorem scale_onDate (i : Instant) (s : Scale) (g : Ymd) : echsInstantScale (i.onDate s g) = s.num := by
  rw [echsInstantScale, onDate_y]
  omega

/-- An instant is told by its fields. -/
theorem Instant.eq_of_fields {i j : Instant} (hy : i.y = j.y) (hm : i.m = j.m) (hd : i.d = j.d)
    (ht : i.H = j.H ∧ i.M = j.M ∧ i.S = j.S ∧ i.ms = j.ms) : i = j := by
  obtain ⟨hH, hM, hS, hms⟩ := ht
  cases i
  cases j
  simp_all

/-- What the date was in between does not matter. -/
theorem onDate_onDate (i : Instant) (s s' : Scale) (g g' : Ymd) :
    (i.onDate s g).onDate s' g' = i.onDate s' g' := by
  refine Instant.eq_of_fields ?_ ?_ ?_ ?_
  · rw [onDate_y, onDate_y]
  · rw [onDate_m, onDate_m, onDate_m]
    omega
  · rw [onDate_d, onDate_d, onDate_d]
    omega
  · obtain ⟨h1, h2, h3, h4⟩ := onDate_time (i.onDate s g) s' g'
    obtain ⟨h1', h2', h3', h4'⟩ := onDate_time i s g
    obtain ⟨h1'', h2'', h3'', h4''⟩ := onDate_time i s' g'
    omega

theorem onDate_ymd {i : Instant} {s : Scale} (hs : echsInstantScale i = s.num) :
    i.onDate s i.ymd = i := by
  rw [echsInstantScale] at hs
  refine Instant.eq_of_fields ?_ ?_ ?_ (onDate_time i s i.ymd)
  · rw [onDate_y, Instant.ymd]
    dsimp only
    omega
  · rw [onDate_m, Instant.ymd]
    dsimp only
    omega
  · rw [onDate_d, Instant.ymd]
    dsimp only
    omega

theorem onDate_ne_nul (i : Instant) (s : Scale) {g : Ymd} (h : g.y % 4096 ≠ 0) :
    i.onDate s g ≠ echsNulInstant := by
  intro heq
  have hy := congrArg Instant.y heq
  rw [onDate_y] at hy
  exact h (Nat.eq_zero_of_add_eq_zero_right hy)

/-- **Rescaling puts an instant on the date of its day number**, if there is one. -/
theorem echsInstantRescale_eq {i : Instant} {src tgt : Scale} (hsrc : echsInstantScale i = src.num)
    (hof : Scale.ofNum src.num = some src) (hne : src ≠ tgt) :
    echsInstantRescale i tgt =
      if (scaleOfMjd tgt (scaleToMjd src i.ymd)).y = 0 then echsNulInstant
      else i.onDate tgt (scaleOfMjd tgt (scaleToMjd src i.ymd)) := by
  have hnum : src.num ≠ tgt.num := fun h => hne (Scale.num_inj h)
  have hdate : (⟨(echsInstantDetachScale (echsInstantDetachTzob i)).y,
      (echsInstantDetachScale (echsInstantDetachTzob i)).m,
      (echsInstantDetachScale (echsInstantDetachTzob i)).d⟩ : Ymd) = i.ymd := by
    obtain ⟨hy, hm, hd, -⟩ := i.fits
    simp only [echsInstantDetachScale, echsInstantDetachTzob, Instant.pack, Instant.ymd,
      Ymd.mk.injEq]
    omega
  simp only [echsInstantRescale]
  rw [hsrc, if_neg hnum, hof, hdate]
  rfl

/-! ### To a table -/

/-- The slots of `MT` that `ht2mjd` looks at. -/
def ht2mjdLooks (cal : MonthTable) (h : Ymd) : List Int :=
  if cal.nm ≤ htIndex cal h.y h.m then [] else [(htIndex cal h.y h.m : Int)]

/-- The slots of `MT` that `mjd2ht` looks at: those of its scan, and the one before. -/
def mjd2htLooks (cal : MonthTable) (d : Nat) : List Int :=
  let i := (cal.mt.takeWhile (· ≤ d)).length
  (List.range (min (i + 1) cal.nm)).map Int.ofNat ++
    if cal.nm ≤ i then [] else [(i : Int) - 1]

/-- The first day of a table, and the first one after its months. -/
def MonthTable.first (cal : MonthTable) : Nat := cal.mt.getD 0 0
def MonthTable.endDay (cal : MonthTable) : Nat := cal.mt.getD (cal.nm - 1) 0

/-- A date of a table's calendar. -/
def MonthTable.ValidDate (cal : MonthTable) (h : Ymd) : Prop :=
  1 ≤ h.m ∧ h.m ≤ 12 ∧ cal.Covers h.y h.m ∧ 1 ≤ h.d ∧ h.d ≤ ndimHt cal h.y h.m

/-- An instant with a Gregorian date, and the day number of it. -/
def GregInstant (i : Instant) : Prop :=
  echsInstantScale i = Scale.gregorian.num ∧ Gregorian.Valid i.ymd.y i.ymd.m i.ymd.d

def mjdOf (i : Instant) : Int := (dayNo i.ymd.y i.ymd.m i.ymd.d : Int) - 678941

variable {s : Scale} {cal : MonthTable}

/-- A day before the number 0, or after the table, has no date. -/
theorem mjd2ht_outside (hf : cal.Fine) {z : Int} (hz : z < 0 ∨ (cal.endDay : Int) ≤ z)
    (hlo : -1000000 < z) (hhi : z < 4000000000) : cal.nm ≤ (cal.mt.takeWhile (· ≤ u32OfInt z)).length := by
  have hall : ∀ x ∈ cal.mt, x ≤ u32OfInt z := by
    intro x hx
    have hsmall := hf.small x hx
    have hlast := hf.last x hx
    rw [MonthTable.endDay] at hz
    unfold u32OfInt wordOfInt
    omega
  rw [List.takeWhile_eq_self_iff.mpr (by simpa using hall)]
  rfl

/-- A day before the table is not passed by the scan. -/
theorem mjd2ht_early (hf : cal.Fine) {z : Int} (h0 : 0 ≤ z) (hz : z < cal.first) :
    (cal.mt.takeWhile (· ≤ u32OfInt z)).length = 0 := by
  by_contra hpos
  have hle := getD_of_lt_takeWhile (Nat.pos_of_ne_zero hpos)
  have hmem : cal.first ∈ cal.mt := by
    rw [MonthTable.first, List.getD_eq_getElem _ _ hf.some]
    exact List.getElem_mem _
  have hsmall := hf.small _ hmem
  rw [← MonthTable.first] at hle
  unfold u32OfInt wordOfInt at hle
  omega

/-- The month that the scan stops after, for a day of the table. -/
theorem mjd2ht_month (hf : cal.Fine) {d : Nat} (h1 : cal.first ≤ d) (h2 : d < cal.endDay) :
    ∃ k, (cal.mt.takeWhile (· ≤ d)).length = k + 1 ∧ k + 1 < cal.nm ∧
      cal.mt.getD k 0 ≤ d ∧ d < cal.mt.getD (k + 1) 0 := by
  have hsome := hf.some
  have hlt : (cal.mt.takeWhile (· ≤ d)).length < cal.nm := by
    by_contra hge
    have hle := getD_of_lt_takeWhile (l := cal.mt) (d := d) (i := cal.nm - 1) (by omega)
    rw [MonthTable.endDay] at h2
    omega
  have hat := lt_getD_takeWhile hlt
  have hpos : (cal.mt.takeWhile (· ≤ d)).length ≠ 0 := by
    intro h0
    rw [h0, ← MonthTable.first] at hat
    omega
  obtain ⟨k, hk⟩ := Nat.exists_eq_succ_of_ne_zero hpos
  rw [hk] at hlt hat
  exact ⟨k, hk, hlt, getD_of_lt_takeWhile (by omega), hat⟩

/-- **A day of the table is a date of it**, and the date has that day number. -/
theorem mjd2ht_inside (hf : cal.Fine) {d : Nat} (h1 : cal.first ≤ d) (h2 : d < cal.endDay) :
    cal.ValidDate (mjd2ht cal d) ∧ (mjd2ht cal d).Fits ∧ (mjd2ht cal d).y ≠ 0 ∧
      ht2mjd cal (mjd2ht cal d) = d := by
  obtain ⟨k, hk, hlt, hlo, hhi⟩ := mjd2ht_month hf h1 h2
  have hlen := hf.month_le hlt
  have hsm := hf.sm
  have hreach := hf.reach
  have hendDay : d < 100000 := by
    have hmem : cal.endDay ∈ cal.mt := by
      rw [MonthTable.endDay, List.getD_eq_getElem _ _ (show cal.nm - 1 < cal.mt.length by
        rw [← MonthTable.nm]; omega)]
      exact List.getElem_mem _
    exact h2.trans (hf.small _ hmem)
  have hdate : mjd2ht cal d =
      ⟨(k + cal.sm) / 12 + 1, (k + cal.sm) % 12 + 1, d - cal.mt.getD k 0 + 1⟩ := by
    simp only [mjd2ht, MonthTable.mtPred]
    rw [hk, if_neg (by omega), if_neg (by omega), show k + 1 + cal.sm - 1 = k + cal.sm by omega,
      show k + 1 - 1 = k by omega,
      show (d : Int) - (cal.mt.getD k 0 : Nat) + 1 = (d - cal.mt.getD k 0 + 1 : Nat) by omega,
      u32OfInt_ofNat (by omega)]
  have hindex : htIndex cal ((k + cal.sm) / 12 + 1) ((k + cal.sm) % 12 + 1) = k :=
    htIndex_eq (by omega) (by omega) (by omega) (by omega)
  rw [hdate]
  refine ⟨⟨?_, ?_, ⟨?_, ?_, ?_⟩, ?_, ?_⟩, ⟨?_, ?_, ?_⟩, ?_, ?_⟩
  any_goals dsimp only
  any_goals omega
  · rw [ndimHt, hindex, u32_of_lt (by omega), if_neg (by omega),
      show (cal.mt.getD (k + 1) 0 : Int) - (cal.mt.getD k 0 : Nat) =
        (cal.mt.getD (k + 1) 0 - cal.mt.getD k 0 : Nat) by omega, u32OfInt_ofNat (by omega)]
    omega
  · rw [ht2mjd]
    dsimp only
    rw [hindex, if_neg (by omega),
      show (cal.mt.getD k 0 : Int) + (((d - cal.mt.getD k 0 + 1 : Nat) : Int) - 1) = (d : Nat) by omega,
      u32OfInt_ofNat (by omega)]

/-- The scan looks within the table where it passes the first transition, or all. -/
theorem mjd2htLooks_inside (cal : MonthTable) {d : Nat} (h : (cal.mt.takeWhile (· ≤ d)).length ≠ 0) :
    ∀ k ∈ mjd2htLooks cal d, 0 ≤ k ∧ k < cal.nm := by
  intro k hk
  simp only [mjd2htLooks, List.mem_append, List.mem_map, List.mem_range] at hk
  rcases hk with ⟨j, hj, rfl⟩ | hk
  · rw [Int.ofNat_eq_natCast]
    omega
  · split at hk
    · exact absurd hk List.not_mem_nil
    · rw [List.mem_singleton.mp hk]
      omega

/-- The days of a table's months. -/
def MonthTable.HasDay (cal : MonthTable) (z : Int) : Prop := (cal.first : Int) ≤ z ∧ z < cal.endDay

/-- What is expected of rescaling a Gregorian instant to a table: no date outside the table's
months, otherwise a date of the calendar which comes back, and no look outside the table. -/
def RescalesTo (s : Scale) (cal : MonthTable) (i : Instant) : Prop :=
  (echsInstantRescale i s = echsNulInstant ∨
    (echsInstantScale (echsInstantRescale i s) = s.num ∧
      cal.ValidDate (echsInstantRescale i s).ymd ∧
      echsInstantRescale (echsInstantRescale i s) .gregorian = i)) ∧
    (¬ cal.HasDay (mjdOf i) → echsInstantRescale i s = echsNulInstant) ∧
    ∀ k ∈ mjd2htLooks cal (g2mjd i.ymd), 0 ≤ k ∧ k < cal.nm

/-- The word of a Gregorian instant's day number. -/
theorem g2mjd_ymd {i : Instant} (hi : GregInstant i) : g2mjd i.ymd = u32OfInt (mjdOf i) := by
  have hy : i.ymd.y < 4096 := Nat.mod_lt _ (by decide)
  exact g2mjd_eq (by omega) hi.2

theorem mjdOf_range {i : Instant} (hi : GregInstant i) : -1000000 < mjdOf i ∧ mjdOf i < 4000000 := by
  have hy : i.ymd.y < 4096 := Nat.mod_lt _ (by decide)
  have hlt := dayNo_lt (show i.ymd.y < 9000 by omega) hi.2
  unfold mjdOf
  omega

/-- A Gregorian instant, rescaled to a table. -/
theorem rescale_table (hs : s.table = some cal) {i : Instant} (hi : GregInstant i) :
    echsInstantRescale i s =
      if (mjd2ht cal (u32OfInt (mjdOf i))).y = 0 then echsNulInstant
      else i.onDate s (mjd2ht cal (u32OfInt (mjdOf i))) := by
  obtain ⟨-, hne, -, -, hof⟩ := Scale.table_spec hs
  rw [echsInstantRescale_eq hi.1 rfl hne.symm, hof, show scaleToMjd .gregorian = g2mjd from rfl,
    g2mjd_ymd hi]

/-- A date of the table, rescaled to the Gregorian calendar. -/
theorem rescale_gregorian (hs : s.table = some cal) {j : Instant} (hj : echsInstantScale j = s.num) :
    echsInstantRescale j .gregorian =
      if (mjd2g (ht2mjd cal j.ymd)).y = 0 then echsNulInstant
      else j.onDate .gregorian (mjd2g (ht2mjd cal j.ymd)) := by
  obtain ⟨-, hne, hnum, hto, -⟩ := Scale.table_spec hs
  rw [echsInstantRescale_eq hj hnum hne, hto]
  rfl

theorem rescalesTo_outside (hs : s.table = some cal) {i : Instant} (hi : GregInstant i)
    (h : mjdOf i < 0 ∨ (cal.endDay : Int) ≤ mjdOf i) : RescalesTo s cal i := by
  have hf := (Scale.table_spec hs).1
  obtain ⟨hlo, hhi⟩ := mjdOf_range hi
  have hall := mjd2ht_outside hf h hlo (by omega)
  have hnul : echsInstantRescale i s = echsNulInstant := by
    have hnil : mjd2ht cal (u32OfInt (mjdOf i)) = ⟨0, 0, 0⟩ := if_pos hall
    rw [rescale_table hs hi, hnil]
    rfl
  refine ⟨Or.inl hnul, fun _ => hnul, ?_⟩
  rw [g2mjd_ymd hi]
  refine mjd2htLooks_inside cal ?_
  have hsome := hf.some
  omega

theorem not_rescalesTo_early (hs : s.table = some cal) {i : Instant} (hi : GregInstant i)
    (h0 : 0 ≤ mjdOf i) (h : mjdOf i < cal.first) : ¬ RescalesTo s cal i := by
  rintro ⟨-, hnul, -⟩
  have hf := (Scale.table_spec hs).1
  have hsm := hf.sm
  have hreach := hf.reach
  have hsome := hf.some
  have hscan := mjd2ht_early hf h0 h
  have hyear : (mjd2ht cal (u32OfInt (mjdOf i))).y = (cal.sm - 1) / 12 + 1 := by
    simp only [mjd2ht]
    rw [hscan, if_neg (by omega), Nat.zero_add]
  have hnot : ¬ cal.HasDay (mjdOf i) := fun hd => absurd hd.1 (Int.not_le.mpr h)
  refine absurd (hnul hnot) ?_
  rw [rescale_table hs hi, if_neg (by omega)]
  exact onDate_ne_nul i s (by omega)

theorem rescalesTo_inside (hs : s.table = some cal) {i : Instant} (hi : GregInstant i)
    (h : cal.HasDay (mjdOf i)) : RescalesTo s cal i := by
  obtain ⟨hf, -⟩ := Scale.table_spec hs
  have hy : i.ymd.y < 4096 := Nat.mod_lt _ (by decide)
  obtain ⟨d, hd⟩ : ∃ d : Nat, mjdOf i = d := ⟨(mjdOf i).toNat, by have := h.1; omega⟩
  have hword : u32OfInt (mjdOf i) = d := by
    have hrange := (mjdOf_range hi).2
    rw [hd]
    exact u32OfInt_ofNat (by omega)
  have h1 : cal.first ≤ d := by have := h.1; omega
  have h2 : d < cal.endDay := by have := h.2; omega
  obtain ⟨hvalid, hfits, hyear, hback⟩ := mjd2ht_inside hf h1 h2
  have hto : echsInstantRescale i s = i.onDate s (mjd2ht cal d) := by
    rw [rescale_table hs hi, hword, if_neg hyear]
  have hgreg : mjd2g d = i.ymd := by
    rw [← hword, ← g2mjd_ymd hi]
    exact mjd2g_g2mjd (by omega) hi.2
  have hyear0 : i.ymd.y ≠ 0 := by
    intro h0
    have hlt := dayNo_lt (show i.ymd.y < 9000 by omega) hi.2
    unfold mjdOf at hd
    omega
  refine ⟨Or.inr ?_, fun hn => absurd h hn, ?_⟩
  · rw [hto, ymd_onDate i s hfits]
    refine ⟨scale_onDate i s _, hvalid, ?_⟩
    rw [rescale_gregorian hs (scale_onDate i s _), ymd_onDate i s hfits, hback, hgreg, if_neg hyear0,
      onDate_onDate, onDate_ymd hi.1]
  · rw [g2mjd_ymd hi, hword]
    obtain ⟨k, hk, -⟩ := mjd2ht_month hf h1 h2
    exact mjd2htLooks_inside cal (by omega)

/-! ### From a table -/

/-- An instant with a date such as a table's calendar has. -/
def TableInstant (s : Scale) (j : Instant) : Prop :=
  echsInstantScale j = s.num ∧ 1 ≤ j.ymd.y ∧ 1 ≤ j.ymd.m ∧ j.ymd.m ≤ 12 ∧
    1 ≤ j.ymd.d ∧ j.ymd.d ≤ 30

/-- What is expected of rescaling a table's date to the Gregorian calendar. -/
def RescalesFrom (cal : MonthTable) (j : Instant) : Prop :=
  (¬ cal.Covers j.ymd.y j.ymd.m → echsInstantRescale j .gregorian = echsNulInstant) ∧
    ∀ k ∈ ht2mjdLooks cal j.ymd, 0 ≤ k ∧ k < cal.nm

theorem ht2mjdLooks_inside (cal : MonthTable) (h : Ymd) :
    ∀ k ∈ ht2mjdLooks cal h, 0 ≤ k ∧ k < cal.nm := by
  intro k hk
  rw [ht2mjdLooks] at hk
  split at hk
  · exact absurd hk List.not_mem_nil
  · rw [List.mem_singleton.mp hk]
    omega

/-- A month that the table does not have counts as day 0, or from the last transition. -/
theorem ht2mjd_uncovered (hf : cal.Fine) {h : Ymd} (hy : 1 ≤ h.y ∧ h.y < 4096) (hm : 1 ≤ h.m ∧ h.m ≤ 12)
    (hd : 1 ≤ h.d ∧ h.d ≤ 30) (hn : ¬ cal.Covers h.y h.m) :
    ht2mjd cal h = 0 ∨ ∃ k < 30, ht2mjd cal h = cal.endDay + k := by
  obtain ⟨hsm, hreach, hsome, hsmall, -⟩ := hf
  rw [MonthTable.Covers] at hn
  by_cases hin : cal.nm ≤ htIndex cal h.y h.m
  · exact Or.inl (if_pos hin)
  · have hindex : htIndex cal h.y h.m = cal.nm - 1 := by
      rw [htIndex] at hin ⊢
      unfold u32OfInt wordOfInt at hin ⊢
      omega
    refine Or.inr ⟨h.d - 1, by omega, ?_⟩
    have hmem : cal.endDay ∈ cal.mt := by
      rw [MonthTable.endDay, List.getD_eq_getElem _ _ (show cal.nm - 1 < cal.mt.length by
        rw [← MonthTable.nm]; omega)]
      exact List.getElem_mem _
    have hend := hsmall _ hmem
    rw [ht2mjd, if_neg hin, hindex, ← MonthTable.endDay,
      show (cal.endDay : Int) + ((h.d : Int) - 1) = (cal.endDay + (h.d - 1) : Nat) by omega,
      u32OfInt_ofNat (by omega)]

theorem not_rescalesFrom_uncovered (hs : s.table = some cal) {j : Instant} (hj : TableInstant s j)
    (hn : ¬ cal.Covers j.ymd.y j.ymd.m) : ¬ RescalesFrom cal j := by
  rintro ⟨hnul, -⟩
  obtain ⟨hscale, hy, hm1, hm12, hd1, hd30⟩ := hj
  have hf := (Scale.table_spec hs).1
  have hyear : 0 < (mjd2g (ht2mjd cal j.ymd)).y ∧ (mjd2g (ht2mjd cal j.ymd)).y < 4096 := by
    rcases ht2mjd_uncovered hf ⟨hy, Nat.mod_lt _ (by decide)⟩ ⟨hm1, hm12⟩ ⟨hd1, hd30⟩ hn with
      h0 | ⟨k, hk, heq⟩
    · rw [h0]
      decide
    · rw [heq]
      exact hf.year k hk
  refine absurd (hnul hn) ?_
  rw [rescale_gregorian hs hscale, if_neg (by omega)]
  exact onDate_ne_nul j .gregorian (by omega)

/-- **Rescaling to and from a table** does what is expected of it but for the Gregorian days
from number 0 on that come before the table, and for the months that the table does not have. -/
theorem echsInstantRescale_table_iff (hs : s.table = some cal) :
    (∀ i, GregInstant i →
      (RescalesTo s cal i ↔ ¬ (0 ≤ mjdOf i ∧ mjdOf i < cal.first))) ∧
    ∀ j, TableInstant s j → (RescalesFrom cal j ↔ cal.Covers j.ymd.y j.ymd.m) := by
  refine ⟨fun i hi => ⟨fun hr hearly => ?_, fun hok => ?_⟩, fun j hj => ⟨fun hr => ?_, fun hc => ?_⟩⟩
  · exact not_rescalesTo_early hs hi hearly.1 hearly.2 hr
  · by_cases hin : cal.HasDay (mjdOf i)
    · exact rescalesTo_inside hs hi hin
    · refine rescalesTo_outside hs hi ?_
      unfold MonthTable.HasDay at hin
      omega
  · by_contra hn
    exact not_rescalesFrom_uncovered hs hj hn hr
  · exact ⟨fun hn => absurd hc hn, ht2mjdLooks_inside cal j.ymd⟩

theorem echsInstantRescale_table_ramadan :
    RescalesTo .hijriUmmulqura datUmmulqura (.pack 2024 3 11 255 0 0 0) :=
  ((echsInstantRescale_table_iff rfl).1 (.pack 2024 3 11 255 0 0 0)
    (show _ ∧ _ by decide)).mpr
    (by rw [mjdOf, ← intOfWord_g2mjd (by decide) (by decide)]; decide)

/-- A day before the table gets a date of the month before it. -/
theorem echsInstantRescale_table_early :
    ¬ ∀ (s : Scale) (cal : MonthTable) (i : Instant), s.table = some cal → GregInstant i →
      RescalesTo s cal i := by
  intro hall
  have hexpected := hall .hijriUmmulqura datUmmulqura (.pack 1900 1 1 255 0 0 0) rfl
    (show _ ∧ _ by decide)
  refine absurd (hexpected.2.1 ?_) (by decide +kernel)
  rw [MonthTable.HasDay, mjdOf, ← intOfWord_g2mjd (by decide) (by decide)]
  decide

end Echse
