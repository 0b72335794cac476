/-
Calendar scales: `scale.c`.

Day numbers are modified Julian days, computed in `unsigned int`.
-/
import Echse.Instant
import Echse.DatHijri

namespace Echse

/-- A calendar date; `struct ymd_s`. -/
structure Ymd where
  y : Nat
  m : Nat
  d : Nat
deriving DecidableEq, Repr

inductive HijTyp where
  | I | II | III | IV
deriving DecidableEq, Repr

inductive HijEpo where
  | astro | civil
deriving DecidableEq, Repr

/-- Shifts based on type. -/
def tsh : HijTyp → Nat
  | .I => 401
  | .II => 301
  | .III => 1
  | .IV => u32OfInt (-199)

/-- Epochs in Julian days. -/
def epo : HijEpo → Nat
  | .civil => 1948084
  | .astro => 1948085

/-! ### Day numbers -/

/-- The index of a month in a month table. -/
def htIndex (cal : MonthTable) (y m : Nat) : Nat :=
  u32OfInt (((y : Int) - 1) * 12 + ((m : Int) - 1) - cal.sm)

def ht2mjd (cal : MonthTable) (h : Ymd) : Nat :=
  if cal.nm ≤ htIndex cal h.y h.m then 0
  else u32OfInt ((cal.mt.getD (htIndex cal h.y h.m) 0 : Int) + ((h.d : Int) - 1))

/-- Days before each month in the arithmetic Hijri calendars. -/
def hijMonthDays : List Nat :=
  [0, 0, 30, 59, 89, 118, 148, 177, 207, 236, 266, 295, 325]

def hij2mjd (t : HijTyp) (e : HijEpo) (h : Ymd) : Nat :=
  let doy := u32 (hijMonthDays.getD h.m 0 + h.d)
  let cyc := h.y / 30
  let k := h.y % 30
  let z1 := u32 (cyc * 10631 + u32 (k * 1063100 + tsh t) / 3000 + doy)
  u32OfInt ((z1 : Int) + epo e - 2400000)

def g2mjd (g : Ymd) : Nat :=
  let b := u32OfInt ((g.y : Int) + 100100 + Int.tdiv ((g.m : Int) - 8) 6)
  let d := u32 (b * 1461) / 4
  let d := u32 (d + u32 (153 * ((g.m + 9) % 12) + 2) / 5 + g.d)
  u32OfInt ((d : Int) - (u32 (b / 100 * 3) / 4 : Nat) + 752 - 34840408 - 2400000)

/-- Turn a Julian day number into a Gregorian date. -/
def mjd2g (d : Nat) : Ymd :=
  let d := u32 (d + 2400000)
  let j := u32 (4 * d + 139361631)
  let j := u32OfInt ((j : Int) + (u32 (u32 (4 * d + 183187720) / 146097 * 3) / 4 * 4 : Nat) - 3908)
  let i := j % 1461 / 4 * 5 + 308
  let gd := i % 153 / 5 + 1
  let gm := i / 153 % 12 + 1
  let gy := u32OfInt ((j / 1461 : Nat) - 100100 + Int.tdiv (8 - (gm : Int)) 6)
  ⟨gy, gm, gd⟩

/-- `MT[i - 1]` of `mjd2ht`; for `i = 0` the slot before the transitions is `EM`. -/
def MonthTable.mtPred (cal : MonthTable) (i : Nat) : Nat :=
  if i = 0 then cal.em else cal.mt.getD (i - 1) 0

/-- Turn a day number into a date by a scan over the transitions. -/
def mjd2ht (cal : MonthTable) (d : Nat) : Ymd :=
  let i := (cal.mt.takeWhile (· ≤ d)).length
  if cal.nm ≤ i then ⟨0, 0, 0⟩
  else
    let m := i + cal.sm
    ⟨(m - 1) / 12 + 1, (m - 1) % 12 + 1, u32OfInt ((d : Int) - cal.mtPred i + 1)⟩

/-- Integer only version of Gent's converter. -/
def mjd2hij (t : HijTyp) (e : HijEpo) (j : Nat) : Ymd :=
  let z := u32OfInt ((j : Int) + 2400000 - epo e)
  let cyc := z / 10631
  let z1 := z % 10631
  let b := if z1 = 0 then 1 else 0
  let k := u32OfInt ((u32OfInt (3000 * (z1 : Int) - tsh t) / 1063100 : Nat) - (b : Int))
  let z2 := u32OfInt ((z1 : Int) - (u32 (k * 1063100 + tsh t) / 3000 : Nat) + b)
  let y := u32 (30 * cyc + k)
  let m := u32 (10000 * z2 + 285001) / 295000
  let d := u32OfInt ((z2 : Int) - (u32OfInt (295001 * (m : Int) - 290000) / 10000 : Nat))
  ⟨y, m, d⟩

/-! ### Month lengths -/

def ndimHt (cal : MonthTable) (y m : Nat) : Nat :=
  if cal.nm ≤ u32 (htIndex cal y m + 1) then 0
  else u32OfInt ((cal.mt.getD (htIndex cal y m + 1) 0 : Int) - cal.mt.getD (htIndex cal y m) 0)

def gregMdays : List Nat := [0, 31, 28, 31, 30, 31, 30, 31, 31, 30, 31, 30, 31]

/-- The number of days in a Gregorian month, with a leap year every four years. -/
def ndimGreg (y m : Nat) : Nat :=
  gregMdays.getD m 0 + if y % 4 = 0 ∧ m = 2 then 1 else 0

/-- Whether a Hijri year is intercalary, by a trial conversion there and back. -/
def hijIntyP (t : HijTyp) (y : Nat) : Bool :=
  let k := y % 30
  let z1 := u32 (u32 (k * 1063100 + tsh t) / 3000 + 355) % 10631
  let b := if z1 = 0 then 1 else 0
  let kr := u32OfInt ((u32OfInt (3000 * (z1 : Int) - tsh t) / 1063100 : Nat) - (b : Int))
  u32OfInt ((z1 : Int) - (u32 (kr * 1063100 + tsh t) / 3000 : Nat) + b) != 1

def ndimHij (t : HijTyp) (y m : Nat) : Nat :=
  29 + m % 2 + if m = 12 ∧ hijIntyP t y = true then 1 else 0

/-! ### Weekdays

`MIR` is 0, then Monday to Sunday are 1 to 7.
-/

def wdayMir : Nat := 0
def wdayMon : Nat := 1
def wdayFri : Nat := 5
def wdaySat : Nat := 6
def wdaySun : Nat := 7

def sakamoto : List Nat := [0, 3, 2, 5, 0, 3, 5, 1, 4, 6, 2, 4]

/-- The Gregorian weekday, by Sakamoto's method. -/
def wdayGreg (y m d : Nat) : Nat :=
  let y := if m < 3 then u32OfInt ((y : Int) - 1) else y
  let res := u32 (y + y / 4 + y / 400 - y / 100 + sakamoto.getD (m - 1) 0 + d)
  if res % 7 = 0 then wdaySun else res % 7

def wdayHt (cal : MonthTable) (y m d : Nat) : Nat := u32 (ht2mjd cal ⟨y, m, d⟩ + 1) % 7 + 1

def wdayHij (t : HijTyp) (e : HijEpo) (y m d : Nat) : Nat :=
  u32 (hij2mjd t e ⟨y, m, d⟩ + 1) % 7 + 1

/-! ### By scale -/

/-- The type and epoch of an arithmetic Hijri scale; `SCAL2TYP`, `SCAL2EPO`. -/
def Scale.hij : Scale → Option (HijTyp × HijEpo)
  | hijriIA => some (.I, .astro)
  | hijriIC => some (.I, .civil)
  | hijriIIA => some (.II, .astro)
  | hijriIIC => some (.II, .civil)
  | hijriIIIA => some (.III, .astro)
  | hijriIIIC => some (.III, .civil)
  | hijriIVA => some (.IV, .astro)
  | hijriIVC => some (.IV, .civil)
  | _ => none

/-- Number of days in month `m` of year `y` on a scale. -/
def echsScaleNdim (s : Scale) (y m : Nat) : Nat :=
  match s with
  | .gregorian => ndimGreg y m
  | .hijriUmmulqura => ndimHt datUmmulqura y m
  | .hijriDiyanet => ndimHt datDiyanet y m
  | _ => match s.hij with
    | some (t, _) => ndimHij t y m
    | none => 0

/-- The weekday of a date on a scale. -/
def echsScaleWday (s : Scale) (y m d : Nat) : Nat :=
  match s with
  | .gregorian => wdayGreg y m d
  | .hijriUmmulqura => wdayHt datUmmulqura y m d
  | .hijriDiyanet => wdayHt datDiyanet y m d
  | _ => match s.hij with
    | some (t, e) => wdayHij t e y m d
    | none => wdayMir

/-- The day number of a date on a scale. -/
def scaleToMjd (s : Scale) (h : Ymd) : Nat :=
  match s with
  | .gregorian => g2mjd h
  | .hijriUmmulqura => ht2mjd datUmmulqura h
  | .hijriDiyanet => ht2mjd datDiyanet h
  | _ => match s.hij with
    | some (t, e) => hij2mjd t e h
    | none => 0

/-- The date of a day number on a scale; year 0 is no date. -/
def scaleOfMjd (s : Scale) (d : Nat) : Ymd :=
  match s with
  | .gregorian => mjd2g d
  | .hijriUmmulqura => mjd2ht datUmmulqura d
  | .hijriDiyanet => mjd2ht datDiyanet d
  | _ => match s.hij with
    | some (t, e) => mjd2hij t e d
    | none => ⟨0, 0, 0⟩

/-- Convert an instant to scale `tgt`; the nul instant where there is no such date. -/
def echsInstantRescale (i : Instant) (tgt : Scale) : Instant :=
  let z := echsInstantTzob i
  let tmp := echsInstantDetachScale (echsInstantDetachTzob i)
  if echsInstantScale i = tgt.num then
    echsInstantAttachTzob (echsInstantAttachScale tmp tgt) z
  else
    match Scale.ofNum (echsInstantScale i) with
    | none => echsNulInstant
    | some src =>
      let g := scaleOfMjd tgt (scaleToMjd src ⟨tmp.y, tmp.m, tmp.d⟩)
      if g.y = 0 then echsNulInstant
      else
        let tmp := Instant.pack g.y g.m g.d tmp.H tmp.M tmp.S tmp.ms
        echsInstantAttachTzob (echsInstantAttachScale tmp tgt) z

end Echse
