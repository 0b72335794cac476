/-
Candidates: the date converters of `evrrul.c` and the `fill_*` helpers that put the
days a rule asks for into a set of candidate codes.

A candidate is one number, `32 * (m - 1) + d`.  Months and days are `unsigned int`,
so a day below 1 packs into the month before.
-/
import Echse.Rrule

namespace Echse

/-- `struct md_s`. -/
structure Md where
  m : Nat
  d : Nat
deriving DecidableEq, Repr

/-! ### Generic date converters -/

def ymdGetWday (y m d : Nat) : Nat := wdayGreg y m d

def ydGetWday (y : Nat) (yd : Int) : Nat :=
  let r := u32OfInt ((ymdGetWday y 1 1 : Int) + yd - 1) % 7
  if r = 0 then wdaySun else r

def monYday : List Nat := [0, 0, 31, 59, 90, 120, 151, 181, 212, 243, 273, 304, 334, 365]

def ymdGetYd (y m d : Nat) : Nat :=
  monYday.getD m 0 + d + if y % 4 = 0 ∧ 3 ≤ m then 1 else 0

/-- `__get_ndom`. -/
def getNdom (y m : Nat) : Nat := ndimGreg y m

/-- `__get_mcnt`: how often weekday `w` occurs in a month. -/
def getMcnt (y m : Nat) (w : Nat) : Nat :=
  let wd1 := ymdGetWday y m 1
  let wd01cnt := (getNdom y m - 1) / 7 + 1
  let wd01mod := (getNdom y m - 1) % 7
  -- we need sun on 0
  let w := if w = wdaySun then wdayMir else w
  if (wd1 ≤ w ∧ w ≤ wd1 + wd01mod) ∨ w + 7 ≤ wd1 + wd01mod then wd01cnt else wd01cnt - 1

/-- The day of the month of the `c`-th weekday `w`, 0 if there is none. -/
def ymcwGetDom (y m : Nat) (c : Int) (w : Nat) : Nat :=
  let wd1 := ymdGetWday y m 1
  let max := getMcnt y m w
  if (max : Int) < c then 0
  else if c < 0 ∧ c + max + 1 ≤ 0 then 0
  else
    let c := if c < 0 then c + max + 1 else c
    let add := (w + 7 - wd1) % 7
    let tgtd := u32OfInt (1 + (add : Int) + (c - 1) * 7)
    if gregMdays.getD m 0 < tgtd then
      -- ah, leap year innit
      if tgtd = 29 ∧ y % 4 = 0 then tgtd else u32OfInt ((tgtd : Int) - 7)
    else tgtd

/-- Weekday of the first of January over the 28-year cycle. -/
def jan0128yWday : List Nat :=
  [5, 7, 1, 2, 3, 5, 6,
   7, 1, 3, 4, 5, 6, 1,
   2, 3, 4, 6, 7, 1, 2,
   4, 5, 6, 7, 2, 3, 4]

def getJan01Wday (y : Nat) : Nat := jan0128yWday.getD (y % 28) 0

/-- Mon means hang of 0, Tue -1, Wed -2, Thu -3, Fri 3, Sat 2, Sun 1. -/
def ywdGetJan01Hang (j01 : Nat) : Int :=
  let res := 1 - (j01 : Int)
  if res < -3 then 7 + res else res

def getIsowk (y : Nat) : Nat :=
  if y % 28 = 16 ∨ y % 28 = 21 ∨ y % 28 = 27 ∨ y % 28 = 4 ∨ y % 28 = 10 then 53 else 52

/-- Day of the year of an ISO week date; it is below 1 or past the year's end where the
week reaches into a neighbouring year. -/
def ywdGetYday (y : Nat) (w : Int) (d : Nat) : Int :=
  let hang := ywdGetJan01Hang (getJan01Wday y)
  let w := if w < 0 then w + 1 + getIsowk y else w
  7 * (w - 1) + d + hang

/-- Remainders of the 32-adic days of the year. -/
def remTab : List Nat := [19, 19, 18, 14, 13, 11, 10, 8, 7, 6, 4, 3, 1, 0]

/-- Freundt algorithm: month and day of a day of the year. -/
def ydToMd (y : Nat) (doy : Int) : Md :=
  let doy := if doy < 0 then doy + 366 + (if y % 4 = 0 then 1 else 0) else doy
  let m := u32OfInt (doy + 19) / 32
  let d := u32OfInt (doy + 19) % 32
  let beef := remTab.getD m 0
  let cake := remTab.getD (m + 1) 0
  -- put leap years into cake, all leap-affected cakes are < 16
  let leap := y % 4 = 0 ∧ cake < 16
  let beef := if leap ∧ beef < 16 then beef + 1 else beef
  let cake := if leap then cake + 1 else cake
  if d ≤ cake then ⟨m, u32OfInt (doy - (((m : Int) - 1) * 32 - 19 + beef))⟩
  else ⟨m + 1, u32OfInt (doy - ((m : Int) * 32 - 19 + cake))⟩

def ywdToMd (y : Nat) (w : Int) (d : Nat) : Md :=
  let res := ydToMd y (ywdGetYday y w d)
  if res.m = 0 then ⟨12, u32OfInt ((res.d : Int) - 1)⟩
  else if res.m = 13 then ⟨1, res.d⟩
  else res

/-- Day of the year of the `c`-th weekday `w` of a year, in `unsigned int`. -/
def ycwGetYday (y : Nat) (c : Int) (w : Nat) : Nat :=
  let j01w := ymdGetWday y 1 1
  let diff := if j01w ≤ w then w - j01w else 7 + w - j01w
  if 0 < c then u32OfInt (7 * (c - 1) + diff + 1)
  else if c < 0 then
    -- there's always the 53rd J01 in Y, mapping to the 365th day
    let res := 7 * (53 + c) + diff + 1
    if diff = 0 ∨ (diff = 1 ∧ y % 4 = 0) then u32OfInt res else u32OfInt (res - 7)
  else 0

/-- Calculate the Gregorian Easter date, as a day of the year. -/
def easterGetYday (y : Nat) : Nat :=
  let a := y % 19
  let b := y / 4
  let c := b / 25 + 1
  let d := u32 (3 * c) / 4
  let e := u32OfInt (19 * (a : Int) - (u32 (8 * c + 5) / 25 : Nat) + d + 15) % 30
  let e := u32 (e + u32OfInt (29578 - (a : Int) - 32 * e) / 1024)
  let e := u32OfInt ((e : Int) - (u32OfInt ((y % 7 : Nat) + (b : Int) - d + e + 2) % 7 : Nat))
  -- E is in terms of Mar, so add the days till 01/Mar
  u32 (e + 59 + if y % 4 = 0 then 1 else 0)

/-! ### Candidate codes -/

/-- A code handed on as an `int`. -/
def packCand (m : Nat) (d : Int) : Int := intOfWord 32 (wordOfInt 32 (((m : Int) - 1) * 32 + d))

def unpackCand (c : Int) : Md := ⟨u32 (u32OfInt c / 32 + 1), u32OfInt c % 32⟩

def incMd (md : Md) (y : Nat) : Md :=
  if getNdom y md.m < md.d + 1 then ⟨md.m + 1, 1⟩ else ⟨md.m, md.d + 1⟩

def incWd (wd : Nat) : Nat := if (wd + 1) % 8 = 0 then wdayMon else wd + 1

/-- Bit `i` of a mask. -/
def maskHas (mask i : Nat) : Bool := mask.testBit i

/-- `wd_mask >> 1U`: the mask names a weekday, the lowest bit aside. -/
def maskPlain (mask : Nat) : Bool := mask >>> 1 != 0

/-- Whether a month and day are in the given sets. -/
def mdMatchP (md : Md) (m : Nat) (d : Bitint) : Bool :=
  let mp := bui31HasBits m
  let dp := bi31HasBits d
  if !mp && !dp then true
  else if mp && dp then bui31HasBit m md.m && bi31HasBit d md.d
  else if mp then bui31HasBit m md.m
  else bi31HasBit d md.d

/-! ### Recurrence helpers

Each adds to a candidate set.  The loops of the source run over an iterator; here they
run over the list of what it yields.
-/

def fillYlyYwd (cand : Bitints) (y : Nat) (woy : Bitint) (dow : Bitints) : Bitints :=
  (bi63List woy).foldl (fun cand wk =>
    (bi447List dow).foldl (fun cand dc =>
      if dc ≤ (wdayMir : Int) ∨ (wdaySun : Int) < dc then cand
      else
        let md := ywdToMd y wk dc.toNat
        if md.m = 0 then cand else assBi383 cand (packCand md.m md.d)) cand) cand

def fillMlyYmcw (cand : Bitints) (y m : Nat) (dow : Bitints) : Bitints :=
  (bi447List dow).foldl (fun cand tmp =>
    let cd := unpackCd tmp
    if cd.cnt = 0 then cand
    else
      let dom := ymcwGetDom y m cd.cnt cd.dow
      if dom = 0 then cand else assBi383 cand (packCand m dom)) cand

def fillYlyYmcw (cand : Bitints) (y : Nat) (dow : Bitints) (m : List Nat) : Bitints :=
  m.foldl (fun cand m => fillMlyYmcw cand y m dow) cand

def fillYlyYcw (cand : Bitints) (y : Nat) (dow : Bitints) : Bitints :=
  (bi447List dow).foldl (fun cand tmp =>
    let cd := unpackCd tmp
    if cd.cnt = 0 then cand
    else
      let yd := ycwGetYday y cd.cnt cd.dow
      if yd = 0 then cand
      else
        let md := ydToMd y (intOfWord 32 yd)
        if md.m = 0 then cand else assBi383 cand (packCand md.m md.d)) cand

def fillYlyYd (cand : Bitints) (y : Nat) (doy : Bitints) (wdMask : Nat) : Bitints :=
  (bi383List doy).foldl (fun cand yd =>
    if maskPlain wdMask && !maskHas wdMask (ydGetWday y yd) then cand
    else
      let md := ydToMd y yd
      if md.m = 0 then cand else assBi383 cand (packCand md.m md.d)) cand

/-- The dense version of `fill_yly_yd` where all days are set, `n` of them left. -/
def fillYlyYdAllFrom (y wdMask : Nat) : Nat → Nat → Md → Bitints → Bitints
  | 0, _, _, c => c
  | n + 1, w, md, c =>
      fillYlyYdAllFrom y wdMask n (incWd w) (incMd md y)
        (if maskHas wdMask w then assBi383 c (packCand md.m md.d) else c)

def fillYlyYdAll (c : Bitints) (y wdMask : Nat) : Bitints :=
  if !maskPlain wdMask then c
  else fillYlyYdAllFrom y wdMask (if y % 4 = 0 then 366 else 365) (ymdGetWday y 1 1) ⟨1, 1⟩ c

/-- Go through the days of one month from `d` on, `n` of them left, keeping track of
the weekday. -/
def fillDays (m : Nat) (keep : Nat → Bool) : Nat → Nat → Nat → Bitints → Bitints
  | 0, _, _, c => c
  | n + 1, d, w, c =>
      fillDays m keep n (d + 1) (incWd w) (if keep w then assBi383 c (packCand m d) else c)

/-- The dense version of `fill_yly_ymd` where all days in the months are set. -/
def fillYlyMdAll (c : Bitints) (s : Scale) (y : Nat) (m : List Nat) (wdMask : Nat) : Bitints :=
  if !maskPlain wdMask then c
  else m.foldl (fun c m =>
    fillDays m (maskHas wdMask) (echsScaleNdim s y m) 1 (ymdGetWday y m 1) c) c

/-- The mask test of `fill_yly_eastr`, on the offset from Easter Sunday. -/
def eastrMasked (wdMask : Nat) (offs : Int) : Bool :=
  maskPlain wdMask &&
    if 0 ≤ offs then !maskHas wdMask (offs % 7).toNat
    else !maskHas wdMask (7 - (-offs % 7).toNat)

def fillYlyEastr (cand : Bitints) (y : Nat) (s : Bitints) (m : Nat) (d : Bitint)
    (wdMask : Nat) : Bitints :=
  (bi383List s).foldl (fun cand offs =>
    if eastrMasked wdMask offs then cand
    else
      let yd := easterGetYday y
      if yd = 0 then cand
      else
        let yd := u32OfInt ((yd : Int) + offs)
        if yd = 0 ∨ 366 < yd then cand
        else
          let md := ydToMd y yd
          if md.m = 0 then cand
          else if !mdMatchP md m d then cand
          else assBi383 cand (packCand md.m md.d)) cand

/-- Where a listed month day falls in a month of `ndim` days.  The test for a negative
one is made in `unsigned int`, so only a sum of exactly 0 fails it. -/
def domOf (ndim : Nat) (dd : Int) : Option Int :=
  if 0 < dd ∧ dd ≤ ndim then some dd
  else if dd < 0 ∧ u32OfInt ((ndim : Int) + 1 + dd) ≠ 0 then some (dd + ndim + 1)
  else none

def fillMlyYmd (cand : Bitints) (s : Scale) (y mo : Nat) (d : List Int) (wdMask : Nat) :
    Bitints :=
  d.foldl (fun cand dd =>
    match domOf (echsScaleNdim s y mo) dd with
    | none => cand
    | some dd =>
        if maskPlain wdMask && !maskHas wdMask (echsScaleWday s y mo (u32OfInt dd)) then cand
        else assBi383 cand (packCand mo dd)) cand

def fillYlyYmd (cand : Bitints) (s : Scale) (y : Nat) (m : List Nat) (d : List Int)
    (wdMask : Nat) : Bitints :=
  m.foldl (fun cand m => fillMlyYmd cand s y m d wdMask) cand

/-- As `fill_yly_ymd` with every month, but the mask counts as soon as it is not 0. -/
def fillYlyYmdAllM (cand : Bitints) (s : Scale) (y : Nat) (d : List Int) (wdMask : Nat) :
    Bitints :=
  (List.range' 1 12).foldl (fun cand m =>
    d.foldl (fun cand dd =>
      match domOf (echsScaleNdim s y m) dd with
      | none => cand
      | some dd =>
          if wdMask != 0 && !maskHas wdMask (echsScaleWday s y m (u32OfInt dd)) then cand
          else assBi383 cand (packCand m dd)) cand) cand

def fillMlyYmdAllD (cand : Bitints) (s : Scale) (y mo wdMask : Nat) : Bitints :=
  fillDays mo (fun w => wdMask == 0 || maskHas wdMask w) (echsScaleNdim s y mo) 1
    (echsScaleWday s y mo 1) cand

def fillYlyYmdAllD (cand : Bitints) (s : Scale) (y : Nat) (m : List Nat) (wdMask : Nat) :
    Bitints :=
  m.foldl (fun cand m => fillMlyYmdAllD cand s y m wdMask) cand

end Echse
