/-
The event stream of a rule: `refill` and `next_evrrul` of `evical.c`, with the instant
arithmetic of `instant.c` and the zone offsets of `tzob.c`.

A zone is known by its offset function, from seconds since the epoch to seconds east of
UTC; zone files are outside of the sources.
-/
import Echse.Expand

namespace Echse

/-! ### Adding a duration -/

/-- One unit of `echs_instant_add`: the new value below `n` and the carry. -/
def addUnit (v : Nat) (msd n : Int) : Nat × Int :=
  let car := Int.tdiv (v + msd) n
  let cdr := Int.tmod (v + msd) n
  if 0 ≤ cdr then (cdr.toNat, car) else ((cdr + n).toNat, car - 1)

/-- `fixup_d:` where days are missing, going back by months. -/
def fixupBack : Nat → Nat → Nat → Int → Nat × Nat × Int
  | 0, y, m, d => (y, m, d)
  | fuel + 1, y, m, d =>
      if d < 1 then
        let y' := if m - 1 < 1 then y - 1 else y
        let m' := if m - 1 < 1 then 12 else m - 1
        fixupBack fuel y' m' (d + ndimGreg y' m')
      else (y, m, d)

/-- `fixup_d:` where there are too many days. -/
def fixupFwd : Nat → Nat → Nat → Int → Nat × Nat × Int
  | 0, y, m, d => (y, m, d)
  | fuel + 1, y, m, d =>
      if (ndimGreg y m : Int) < d then
        fixupFwd fuel (if 12 < m + 1 then y + 1 else y) (if 12 < m + 1 then 1 else m + 1)
          (d - ndimGreg y m)
      else (y, m, d)

/-- Add days to a date. -/
def addDd (y m : Nat) (d : Int) : Nat × Nat × Int :=
  if 1 ≤ d ∧ d ≤ 28 then (y, m, d)
  else if d < 1 then fixupBack (d.natAbs + 1) y m d
  else fixupFwd d.natAbs y m d

def msecsPerDay : Int := 86400000

/-- `echs_instant_add`, the duration in milliseconds. -/
def echsInstantAdd (bas : Instant) (add : Int) : Instant :=
  let dd := Int.tdiv add msecsPerDay
  let msd := Int.tmod add msecsPerDay
  if echsInstantAllDayP bas then
    let (y, m, d) := addDd bas.y bas.m (bas.d + dd)
    .pack y m d.toNat bas.H bas.M bas.S bas.ms
  else
    let ms := if echsInstantAllSecP bas then (bas.ms, Int.tdiv msd 1000) else addUnit bas.ms msd 1000
    let S := addUnit bas.S ms.2 60
    let M := addUnit bas.M S.2 60
    let H := addUnit bas.H M.2 24
    let dd := dd + H.2
    if dd = 0 then .pack bas.y bas.m bas.d H.1 M.1 S.1 ms.1
    else
      let (y, m, d) := addDd bas.y bas.m (bas.d + dd)
      .pack y m d.toNat H.1 M.1 S.1 ms.1

/-! ### The difference of two instants -/

/-- `doy`, the days before each month of two years. -/
def instantDoy : List Nat :=
  [0, 0, 31, 59, 90, 120, 151, 181, 212, 243, 273, 304, 334,
    365, 396, 424, 455, 485, 516, 546, 577, 608, 638, 669, 699]

/-- `__doy`. -/
def doyOf (i : Instant) : Nat :=
  instantDoy.getD i.m 0 + i.d + if i.y % 4 = 0 ∧ 3 ≤ i.m then 1 else 0

/-- `__jan00`, the days before a year. -/
def jan00 (year : Nat) : Nat :=
  let by_ := u32OfInt ((year : Int) - 1601)
  u32OfInt ((u32 (u32 (by_ * 365) + by_ / 4) : Int) - (by_ / 100 : Nat) + (by_ / 400 : Nat))

/-- `echs_instant_diff`.  The days are an `int` and the milliseconds of a day an
`unsigned int`, so their product is one too, before it is stored in 64 bits. -/
def echsInstantDiff (fin beg : Instant) : Int :=
  let intra : Int := ((((fin.H : Int) - beg.H) * 60 + ((fin.M : Int) - beg.M)) * 60
    + ((fin.S : Int) - beg.S)) * 1000 + ((fin.ms : Int) - beg.ms)
  let extra : Int := if intra < 0 then -1 else if intra < msecsPerDay then 0 else 1
  let intra := if intra < 0 then intra + msecsPerDay else intra
  let extra := extra + ((jan00 fin.y : Int) - jan00 beg.y) + ((doyOf fin : Int) - doyOf beg)
  u32OfInt (extra * msecsPerDay + intra)

/-! ### Zones -/

def marFebYday : List Nat := [0, 306, 337, 0, 31, 61, 92, 122, 153, 184, 214, 245, 275]

/-- `__inst_to_epoch`, in `unsigned int`. -/
def instToEpoch (i : Instant) : Nat :=
  let by_ := u32OfInt ((i.y : Int) - 1948)
  let j0 := u32 (u32 (by_ * 365) + by_ / 4)
  let yd := if i.m ≤ 12 then marFebYday.getD i.m 0 + i.d else 0
  u32OfInt ((((((j0 : Int) + yd - 7977) * 24 + (if i.H ≤ 24 then i.H else 24 : Nat)) * 60 + i.M) * 60)
    + i.S)

/-- A zone: its offset at an epoch second. -/
abbrev Zone := Int → Int

/-- `echs_instant_tzof`. -/
def echsInstantTzof (i : Instant) (z : Zone) : Int :=
  let i := echsInstantDetachTzob i
  if echsInstantAllDayP i then 0 else z (instToEpoch i)

/-- `echs_tzob_shift`. -/
def echsTzobShift (i : Instant) (offFrom offTo : Int) : Instant :=
  echsInstantAdd i ((offTo - offFrom) * 1000)

/-- `zif_utc_time`: two looks at the offset. -/
def zifUtcTime (z : Zone) (t : Int) : Int := if z t = 0 then t else t - z (t - z t)

/-- `echs_instant_utc`. -/
def echsInstantUtc (i : Instant) (z : Zone) : Instant :=
  let i := echsInstantDetachTzob i
  if echsInstantAllDayP i then i
  else
    let loc : Int := instToEpoch i
    echsInstantAdd i (1000 * (zifUtcTime z loc - loc))

/-! ### Sorting -/

/-- `echs_instant_sort`, stable. -/
def echsInstantSort (xs : List Instant) : List Instant :=
  xs.insertionSort fun a b => echsInstantLtP b a = false

/-! ### The stream -/

/-- `struct evrrul_s` of a stream with one rule. -/
structure Evrrul where
  /-- Start of the proto-event; the nul instant at the end of the stream. -/
  from_ : Instant
  /-- Proto-zone. -/
  zon : Zone
  /-- Proto-calscale. -/
  cal : Scale
  /-- Proto-offset. -/
  pof : Int
  rrul : Rrulsp
  rdi : Nat
  /-- The cached events. -/
  cch : List Instant

/-- The stream of a rule and a DTSTART in UTC on the Gregorian scale. -/
def makeEvrrul (from_ : Instant) (zon : Zone) (cal : Scale) (rr : Rrulsp) : Evrrul where
  from_ := from_
  zon := zon
  cal := cal
  pof := echsInstantTzof from_ zon
  rrul := rr
  rdi := 0
  cch := []

/-- What `refill` does to an event from an expander: convert it to the target scale and
correct it for the zone's offset there. -/
def Evrrul.show_ (s : Evrrul) (i : Instant) : Instant :=
  let i := echsInstantRescale i s.cal
  let eof := echsInstantTzof i s.zon
  if eof = s.pof then i else echsTzobShift i eof s.pof

/-- `refill` after the expander has returned `evs`: one event is kept for the next
refill if the cache is full, and COUNT goes down by the others. -/
def Evrrul.take (s : Evrrul) (evs : List Instant) : Evrrul :=
  let from_ := if grpCchOff ≤ evs.length then evs.getLastD echsNulInstant else echsNulInstant
  let cch := if grpCchOff ≤ evs.length then evs.dropLast else evs
  let count :=
    if 0 < s.rrul.count then
      if (cch.length : Int) < s.rrul.count then s.rrul.count - cch.length else 0
    else s.rrul.count
  { s with
    from_ := from_
    rrul := { s.rrul with count := count }
    rdi := 0
    cch := echsInstantSort (cch.map s.show_) }

/-- `refill`, with `fuel` passes for the expander; nothing if it is still at work. -/
def refill (fuel : Nat) (s : Evrrul) : Option Evrrul :=
  if echsNulInstantP s.from_ || s.rrul.count == 0 then some { s with cch := [], rdi := 0 }
  else
    match rrulFill s.from_ grpCchOff s.rrul with
    | none => some (s.take [])
    | some X =>
        if (X.after fuel).stop = some .done then some (s.take (X.events fuel)) else none

/-- `next_evrrul` popping: the event's start, or nothing at the end of the stream. -/
def nextEvrrul (fuel : Nat) (s : Evrrul) : Option (Option Instant × Evrrul) := do
  let s ← if s.cch.length ≤ s.rdi then refill fuel s else some s
  match s.cch[s.rdi]? with
  | none => some (none, s)
  | some i => some (some i, { s with rdi := s.rdi + 1 })

/-- The first `n` events of a stream, or all of them if there are fewer. -/
def popEvrrul (fuel : Nat) : Nat → Evrrul → Option (List Instant)
  | 0, _ => some []
  | n + 1, s => do
      let (i, s) ← nextEvrrul fuel s
      match i with
      | none => some []
      | some i => do
          let is ← popEvrrul fuel n s
          some (i :: is)

end Echse
