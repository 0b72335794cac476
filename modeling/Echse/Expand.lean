/-
The seven recurrence expanders of `evrrul.c`, `rrul_fill_yly` to `rrul_fill_Sly`.

Each is a loop over positions in the sense of `FillLoop`: what it does before the loop
gives the masks and the first position, the iteration expression gives the next
position, and the body gives the instants to look at, one group for each date.  An
entry is what `tgt[res]` gets, and what `tgt[res + GRP_CCH_OFF]` gets if it is written
at all.
-/
import Echse.Shift
import Echse.Lib.FillLoop

namespace Echse

open FillLoop (Loop Verdict Stop)

def grpCchOff : Nat := 64

/-! ### Times of day -/

/-- `struct enum_s`, the lists of hours, minutes and seconds. -/
structure Enum where
  H : List Nat
  M : List Nat
  S : List Nat
deriving DecidableEq, Repr

/-- `make_enum`.  The slots for hours are 24 but a rule can name 25: the last one is
written to where the minutes begin, and what is read back there is the first minute. -/
def makeEnum (proto : Instant) (rr : Rrulsp) : Enum :=
  let H := bui31List rr.H
  let H := if H.isEmpty then [proto.H] else H
  let M := bui63List rr.M
  let M := if M.isEmpty then [proto.M] else M
  let S := bui63List rr.S
  let S := if S.isEmpty then [proto.S] else S
  ⟨if H.length = 25 then H.take 24 ++ M.take 1 else H, M, S⟩

/-- The instants `for (ENUM_INIT; ENUM_COND; ENUM_ITER)` goes through on a date. -/
def Enum.times (e : Enum) (y m d ms : Nat) : List Instant :=
  e.H.flatMap fun H => e.M.flatMap fun M => e.S.map fun S => .pack y m d H M S ms

/-- The two-level form, for a given hour. -/
def Enum.times2 (e : Enum) (y m d H ms : Nat) : List Instant :=
  e.M.flatMap fun M => e.S.map fun S => .pack y m d H M S ms

/-- The one-level form, for a given hour and minute. -/
def Enum.times1 (e : Enum) (y m d H M ms : Nat) : List Instant :=
  e.S.map fun S => .pack y m d H M S ms

/-! ### Positions and slots -/

/-- The variables the loops carry from one pass to the next; each loop uses some. -/
structure Pos where
  y : Nat := 0
  m : Nat := 0
  d : Nat := 0
  H : Nat := 0
  M : Nat := 0
  S : Nat := 0
  /-- The weekday of the day. -/
  w : Nat := 0
  /-- The day of the year. -/
  yd : Nat := 0
  /-- Number of days in the current month. -/
  maxd : Nat := 0
  /-- Number of days in the current year. -/
  maxy : Nat := 0
deriving DecidableEq, Repr

/-- What an emitted event leaves in the target array. -/
structure Slot where
  ev : Instant
  grp : Option Instant
deriving DecidableEq, Repr

/-- An expander at work: its loop, the buffer size after COUNT, and where the loop
starts, unless the function is left or has no defined result before it. -/
structure Expander where
  loop : Loop Pos Instant Slot
  room : Nat
  start : Except Stop Pos

namespace Expander

/-- The machine state before the first pass. -/
def init (X : Expander) : FillLoop.State Pos Slot :=
  match X.start with
  | .ok p => X.loop.start p
  | .error s => ⟨{}, 0, [], some s⟩

/-- The machine state after `n` passes. -/
def after (X : Expander) (n : Nat) : FillLoop.State Pos Slot :=
  X.loop.passes (some X.room) n X.init

/-- The events in the target array after `n` passes. -/
def events (X : Expander) (n : Nat) : List Instant := (X.after n).out.map Slot.ev

end Expander

/-- `if ((unsigned int)rr->count < nti) nti = rr->count`. -/
def clampCount (rr : Rrulsp) (nti : Nat) : Nat :=
  if u32OfInt rr.count < nti then u32OfInt rr.count else nti

/-- `if ((nti = rr->count) == 0UL) goto fin`. -/
def countGone (rr : Rrulsp) (nti : Nat) : Bool :=
  decide (u32OfInt rr.count < nti) && u32OfInt rr.count == 0

/-! ### Masks -/

/-- The weekday mask; the lowest bit tells of counted weekdays. -/
def wdMaskOf (dow : Bitints) : Nat :=
  (bi447List dow).foldl (fun mask tmp =>
    mask ||| if (wdayMon : Int) ≤ tmp ∧ tmp ≤ wdaySun then 1 <<< tmp.toNat else 1) 0

/-- The mask of the loops that subtract: without a plain weekday all days are allowed. -/
def wdMaskAll (dow : Bitints) : Nat :=
  if maskPlain (wdMaskOf dow) then wdMaskOf dow else wdMaskOf dow ||| 0b11111110

/-- `mask |= 1U << tmp` over a list. -/
def bitsOf (xs : List Nat) : Nat := xs.foldl (fun mask x => mask ||| 1 <<< x) 0

/-- The month mask; without a month all months are allowed. -/
def mMaskOf (mon : Nat) : Nat :=
  if bitsOf (bui31List mon) = 0 then 0b1111111111110 else bitsOf (bui31List mon)

/-- The masks of month days, counted from the start from 1 and from the end from 0.
Without any day all are allowed. -/
def dMasksOf (dom : Bitint) : Nat × Nat :=
  let pos := bitsOf (((bi31List dom).filter (0 < ·)).map Int.toNat)
  let neg := bitsOf (((bi31List dom).filter (· < 0)).map fun t => (-(t + 1)).toNat)
  if pos = 0 ∧ neg = 0 then (2 ^ 32 - 1, 2 ^ 32 - 1) else (pos, neg)

/-- The masks of hours, minutes and seconds; without a value all are allowed. -/
def timeMaskOf (xs : List Nat) : Nat := if bitsOf xs = 0 then 2 ^ 64 - 1 else bitsOf xs

/-- Whether the masks let a day pass; `maxd` is the length of its month. -/
def dayPasses (wdMask mMask : Nat) (dMasks : Nat × Nat) (p : Pos) : Bool :=
  maskHas wdMask p.w && maskHas mMask p.m &&
    (maskHas dMasks.1 p.d || maskHas dMasks.2 (p.maxd - p.d))

/-! ### Verdicts -/

/-- UNTIL is looked at first. -/
def judgeUntil (until_ proto x : Instant) : Verdict :=
  if echsInstantLtP until_ x then .fin
  else if echsInstantLtP x proto then .drop
  else .emit

/-- The start is looked at first. -/
def judgeProto (until_ proto x : Instant) : Verdict :=
  if echsInstantLtP x proto then .drop
  else if echsInstantLtP until_ x then .fin
  else .emit

/-! ### Yearly -/

/-- `y` after going back a year where a shift may move last year's candidates here. -/
def ylyStartYear (y : Nat) (sh : Int) : Nat :=
  if 0 < echsShiftDvalue sh ∨ (echsShiftBdayP sh ∧ ¬ echsShiftNegP sh) then
    u32OfInt ((y : Int) - 1)
  else y

/-- The unrolled parts of a yearly or monthly rule. -/
structure Parts where
  m : List Nat
  d : List Int
  wdMask : Nat

/-- `ymdp` of `rrul_fill_yly`. -/
def ylyYmdp (rr : Rrulsp) : Bool :=
  !bi63HasBits rr.wk && !bi447HasBits rr.dow && !bi383HasBits rr.doy &&
    !bi383HasBits rr.easter && !bi31HasBits rr.dom

def ylyParts (proto : Instant) (nti : Nat) (rr : Rrulsp) : Parts :=
  let m := (bui31List rr.mon).take 12
  let d := (bi31List rr.dom).take nti
  { m := if m.isEmpty && ylyYmdp rr && proto.m != 0 then [proto.m] else m
    d := if d.isEmpty && ylyYmdp rr && proto.d != 0 then [(proto.d : Int)] else d
    wdMask := wdMaskOf rr.dow }

/-- The candidates of a year before set positions and shifts. -/
def ylyFill (rr : Rrulsp) (p : Parts) (y : Nat) : Bitints :=
  let greg := rr.scale = .gregorian
  let nd := !p.d.isEmpty
  let nm := !p.m.isEmpty
  let cand : Bitints :=
    -- stick to note 2 on page 44, RFC 5545
    if p.wdMask ≠ 0 ∧ (nd || bi383HasBits rr.doy) then .nil
    else if p.wdMask ≠ 0 ∧ bi63HasBits rr.wk ∧ greg then fillYlyYwd .nil y rr.wk rr.dow
    else if p.wdMask ≠ 0 ∧ nm then
      fillYlyMdAll
        (if p.wdMask % 2 = 1 ∧ greg then fillYlyYmcw .nil y rr.dow p.m else .nil)
        rr.scale y p.m p.wdMask
    else if p.wdMask ≠ 0 ∧ greg then
      fillYlyYdAll (if p.wdMask % 2 = 1 then fillYlyYcw .nil y rr.dow else .nil) y p.wdMask
    else .nil
  -- extend by yd
  let cand := if greg then fillYlyYd cand y rr.doy p.wdMask else cand
  -- extend by ymd
  if greg ∧ bi383HasBits rr.easter then
    fillYlyEastr cand y rr.easter rr.mon rr.dom p.wdMask
  else if !nm && !nd then cand
  else if !nm then fillYlyYmdAllM cand rr.scale y p.d p.wdMask
  else if !nd then fillYlyYmdAllD cand rr.scale y p.m p.wdMask
  else fillYlyYmd cand rr.scale y p.m p.d p.wdMask

/-- The candidates of a year in their buckets. -/
def ylyCands (rr : Rrulsp) (p : Parts) (y : Nat) : Cands :=
  shift (.single (clrPoss (ylyFill rr p y) rr.pos)) y rr.shift

/-- The groups of the candidates in the buckets, last year's, this year's, next year's. -/
def candGroups (e : Enum) (ms y : Nat) (c : Cands) : List (Option (List Instant)) :=
  let grp (iy : Int) (yd : Int) : Option (List Instant) :=
    some (e.times (u32OfInt ((y : Int) + iy)) (u32OfInt yd / 32 + 1) (u32OfInt yd % 32) ms)
  (bi383List c.prev).map (grp (-1)) ++ (bi383List c.this).map (grp 0) ++
    (bi383List c.next).map (grp 1)

def ylyLoop (proto : Instant) (nti : Nat) (rr : Rrulsp) : Loop Pos Instant Slot where
  reload := some 64
  hop _ := false
  next p := some { p with y := u32 (p.y + rr.inter) }
  groups p :=
    candGroups (makeEnum proto rr) proto.ms p.y (ylyCands rr (ylyParts proto nti rr) p.y)
  judge := judgeUntil rr.until_ proto
  entry p x := ⟨echsInstantAttachScale x rr.scale, some (.pack p.y 0 0 0 0 0 0)⟩

/-- `proto`, the start instant on the rule's scale. -/
def protoOf (tgt : Instant) (rr : Rrulsp) : Instant :=
  echsInstantDetachScale (echsInstantRescale tgt rr.scale)

def rrulFillYly (tgt : Instant) (nti : Nat) (rr : Rrulsp) : Expander :=
  let proto := protoOf tgt rr
  { loop := ylyLoop proto (clampCount rr nti) rr
    room := clampCount rr nti
    start :=
      if countGone rr nti then .error .done
      else .ok { y := ylyStartYear proto.y rr.shift } }

/-! ### Monthly -/

/-- `ymdp` of `rrul_fill_mly`. -/
def mlyYmdp (rr : Rrulsp) : Bool := !bi447HasBits rr.dow && !bi31HasBits rr.dom

def mlyParts (proto : Instant) (nti : Nat) (rr : Rrulsp) : Parts :=
  let d := (bi31List rr.dom).take nti
  { m := []
    d := if d.isEmpty && mlyYmdp rr && proto.d != 0 then [(proto.d : Int)] else d
    wdMask := wdMaskOf rr.dow }

/-- The first month, gone back by what a shift may move. -/
def mlyStart (proto : Instant) (sh : Int) : Pos :=
  let tmp := echsShiftDvalue sh + Int.tdiv (echsShiftBvalue sh * 7) 5
  let m : Int := (proto.m : Int) - (if 0 < tmp then 1 else 0) - Int.tdiv (tmp - 1) 30
  let y := if m ≤ 0 then u32OfInt ((proto.y : Int) - 1) else proto.y
  let m := if 0 < m then m else m + 12
  { y := y, m := (if 0 < m then m else 1).toNat }

/-- Whether `while (bui31_next(&bm, rr->mon) && ((m + 12U) - (bm - 1U)) % rr->inter)`
stops at a month. -/
def monCongruent (mon m inter : Nat) : Nat → Nat → Bool
  | 0, _ => false
  | fuel + 1, bm =>
      let r := bui31Next mon bm
      if r.1 = 0 then r.2 != 0
      else if (m + 12 - (r.2 - 1)) % inter = 0 then true
      else monCongruent mon m inter fuel r.2

/-- `m += rr->inter` and the carry into the year.  `m` is an `int`: from 2^31 on it is
negative, and stays as it is. -/
def mlyStep (inter : Nat) (p : Pos) : Pos :=
  let m := u32 (p.m + inter)
  if 12 < m ∧ m < 2147483648 then
    { p with y := u32 (p.y + (m - 1) / 12), m := (m - 1) % 12 + 1 }
  else { p with m := m }

def mlyFill (rr : Rrulsp) (p : Parts) (y m : Nat) : Bitints :=
  let nd := !p.d.isEmpty
  let cand : Bitints :=
    -- stick to note 1 on page 44, RFC 5545
    if p.wdMask ≠ 0 ∧ nd then .nil
    else if p.wdMask ≠ 0 then
      fillMlyYmdAllD
        (if p.wdMask % 2 = 1 ∧ rr.scale = .gregorian then fillMlyYmcw .nil y m rr.dow else .nil)
        rr.scale y m p.wdMask
    else .nil
  -- extend by ymd
  if nd then fillMlyYmd cand rr.scale y m p.d p.wdMask else cand

def mlyCands (rr : Rrulsp) (p : Parts) (y m : Nat) : Cands :=
  shift (.single (clrPoss (mlyFill rr p y m) rr.pos)) y rr.shift

def mlyLoop (proto : Instant) (nti : Nat) (rr : Rrulsp) : Loop Pos Instant Slot where
  reload := some 64
  hop p := bui31HasBits rr.mon && !bui31HasBit rr.mon p.m
  next p :=
    -- a negative month is no bit number to look up in BYMONTH
    if bui31HasBits rr.mon && 2147483648 ≤ (mlyStep rr.inter p).m then none
    else some (mlyStep rr.inter p)
  groups p :=
    -- the month tables end at 12
    if p.m = 0 ∨ 12 < p.m then [none]
    else candGroups (makeEnum proto rr) proto.ms p.y
      (mlyCands rr (mlyParts proto nti rr) p.y p.m)
  judge := judgeUntil rr.until_ proto
  entry p x := ⟨echsInstantAttachScale x rr.scale, some (.pack p.y p.m 0 0 0 0 0)⟩

def rrulFillMly (tgt : Instant) (nti : Nat) (rr : Rrulsp) : Expander :=
  let proto := protoOf tgt rr
  let p := mlyStart proto rr.shift
  { loop := mlyLoop proto (clampCount rr nti) rr
    room := clampCount rr nti
    start :=
      if countGone rr nti then .error .done
      else if proto.m = 0 ∨ 12 < proto.m then .error .done
      else if bui31HasBits rr.mon then
        if rr.inter = 0 then .error .trap
        else if monCongruent rr.mon p.m rr.inter 33 0 then .ok p
        else .error .done
      else .ok p }

/-! ### Days and below -/

/-- `while (d > maxd) { d--, d %= maxd, d++; ... }`.  Every turn lowers `d`, so `d` turns
suffice.  `newYear` is what else a loop does when a year begins. -/
def carryDays (ndim : Nat → Nat → Nat) (newYear : Pos → Pos) : Nat → Pos → Option Pos
  | 0, p => some p
  | fuel + 1, p =>
      if p.d ≤ p.maxd then some p
      else if p.maxd = 0 then none
      else
        let d := (p.d - 1) % p.maxd + 1
        let p :=
          if 12 < p.m + 1 then newYear { p with y := u32 (p.y + 1), m := 1, d := d }
          else { p with m := p.m + 1, d := d }
        carryDays ndim newYear fuel { p with maxd := ndim p.y p.m }

/-- Move a position on by days that have been added to it already. -/
def carry (ndim : Nat → Nat → Nat) (newYear : Pos → Pos) (p : Pos) : Option Pos :=
  carryDays ndim newYear p.d p

/-! ### Weekly -/

/-- `wd_mask` of `rrul_fill_wly`; non-0 weekday counts are ignored. -/
def wlyWdMask (dow : Bitints) : Nat :=
  bitsOf (((bi447List dow).filter fun t => (wdayMon : Int) ≤ t ∧ t ≤ wdaySun).map Int.toNat)

/-- The increments from one weekday in the mask to the next, four bits each; `i` days
since the last one, `j` bits written, `n` days to go. -/
def wdIncs : Nat → Nat → Nat → Nat → Nat
  | 0, _, _, _ => 0
  | n + 1, mask, i, j =>
      if mask = 0 then 0
      else if mask % 2 = 1 then ((i % 16) <<< j) ||| wdIncs n (mask >>> 1) 1 (j + 4)
      else wdIncs n (mask >>> 1) (i + 1) j

/-- `wd_incs` for a start on weekday `w`: the mask is doubled so that it can be shifted
past the week's end, and clamped to exactly 7 days. -/
def wlyIncs (dow : Bitints) (w : Nat) : Nat :=
  wdIncs 7 ((wlyWdMask dow ||| wlyWdMask dow <<< 7) >>> w % 128) 0 0

/-- The dates of one week, by the increments that are left. -/
def wlyDates (ndim : Nat → Nat → Nat) (e : Enum) (ms : Nat) :
    Nat → Nat → Pos → List (Option (List Instant))
  | 0, _, _ => []
  | n + 1, incs, p =>
      match carry ndim id { p with d := p.d + incs % 16 } with
      | none => [none]
      | some p =>
          some (e.times p.y p.m p.d ms) ::
            if incs >>> 4 = 0 then [] else wlyDates ndim e ms n (incs >>> 4) p

/-- Step by `inter` weeks. -/
def wlyStep (ndim : Nat → Nat → Nat) (inter : Nat) (p : Pos) : Option Pos :=
  carry ndim id { p with d := u32 (p.d + u32 (inter * 7)) }

def wlyJudge (rr : Rrulsp) (proto x : Instant) : Verdict :=
  if echsInstantLtP x proto then .drop
  else if echsInstantLtP rr.until_ x then .fin
  else if !maskHas (mMaskOf rr.mon) x.m then .skip
  else .emit

def wlyLoop (proto : Instant) (rr : Rrulsp) : Loop Pos Instant Slot where
  reload := none
  hop _ := false
  next := wlyStep (echsScaleNdim rr.scale) rr.inter
  groups :=
    wlyDates (echsScaleNdim rr.scale) (makeEnum proto rr) proto.ms 16
      (wlyIncs rr.dow (echsScaleWday rr.scale proto.y proto.m proto.d))
  judge := wlyJudge rr proto
  entry _ x := ⟨echsInstantAttachScale x rr.scale, none⟩

/-- `!m || m > 12U || !d || d > 31U`. -/
def badDate (i : Instant) : Bool := i.m == 0 || 12 < i.m || i.d == 0 || 31 < i.d

def rrulFillWly (tgt : Instant) (nti : Nat) (rr : Rrulsp) : Expander :=
  let proto := protoOf tgt rr
  { loop := wlyLoop proto rr
    room := clampCount rr nti
    start :=
      if countGone rr nti || badDate proto then .error .done
      else .ok
        { y := proto.y, m := proto.m, d := proto.d
          maxd := echsScaleNdim rr.scale proto.y proto.m } }

/-! ### Daily -/

/-- Step by `inter` days. -/
def dlyStep (ndim : Nat → Nat → Nat) (inter : Nat) (p : Pos) : Option Pos :=
  let w := u32 (p.w + inter)
  carry ndim id
    { p with
      d := u32 (p.d + inter)
      w := if wdaySun < w then (w - 1) % 7 + 1 else w }

def dlyLoop (proto : Instant) (rr : Rrulsp) : Loop Pos Instant Slot where
  reload := none
  hop _ := false
  next := dlyStep (echsScaleNdim rr.scale) rr.inter
  groups p :=
    -- we're subtractive, so check if the current ymd matches
    if dayPasses (wdMaskAll rr.dow) (mMaskOf rr.mon) (dMasksOf rr.dom) p then
      [some ((makeEnum proto rr).times p.y p.m p.d proto.ms)]
    else []
  judge := judgeProto rr.until_ proto
  entry _ x := ⟨echsInstantAttachScale x rr.scale, some (echsInstantAttachScale x rr.scale)⟩

def rrulFillDly (tgt : Instant) (nti : Nat) (rr : Rrulsp) : Expander :=
  let proto := protoOf tgt rr
  if !countGone rr nti && !badDate proto && maskPlain (wdMaskOf rr.dow) && rr.inter == 1 then
    -- what they want in fact is a weekly schedule
    rrulFillWly tgt (clampCount rr nti) rr
  else
    { loop := dlyLoop proto rr
      room := clampCount rr nti
      start :=
        if countGone rr nti || badDate proto then .error .done
        else .ok
          { y := proto.y, m := proto.m, d := proto.d
            w := echsScaleWday rr.scale proto.y proto.m proto.d
            maxd := echsScaleNdim rr.scale proto.y proto.m } }

/-! ### Hourly -/

/-- `w % 7U ?: SUN` for a weekday past the week's end. -/
def wrapWday (w : Nat) : Nat :=
  if wdaySun < w then if w % 7 = 0 then wdaySun else w % 7 else w

def yearDays (y : Nat) : Nat := if y % 4 = 0 then 366 else 365

/-- What `rrul_fill_Hly` does when a year begins: `yd -= maxy - 1`. -/
def hlyNewYear (p : Pos) : Pos :=
  { p with yd := u32OfInt ((p.yd : Int) - ((p.maxy : Int) - 1)), maxy := yearDays p.y }

/-- Whole days made of hours. -/
def addDays (p : Pos) (n : Nat) : Pos :=
  { p with d := u32 (p.d + n), w := wrapWday (u32 (p.w + n)) }

def hlyStep (inter : Nat) (p : Pos) : Option Pos :=
  let H := u32 (p.H + inter)
  if 24 ≤ H then
    carry getNdom hlyNewYear
      { addDays p (H / 24) with yd := u32 (p.yd + H / 24), H := H % 24 }
  else some { p with H := H }

/-- Whether a day of the year is asked for, from its start or from its end. -/
def doyPasses (doy : Bitints) (p : Pos) : Bool :=
  !bi383HasBits doy ||
    (bi383List doy).any fun t =>
      (0 < t ∧ t.toNat = p.yd) ∨ (t < 0 ∧ u32OfInt ((p.maxy : Int) - (t + 1)) = p.yd)

def hlyLoop (proto : Instant) (rr : Rrulsp) : Loop Pos Instant Slot where
  reload := none
  hop _ := false
  next := hlyStep rr.inter
  groups p :=
    if dayPasses (wdMaskAll rr.dow) (mMaskOf rr.mon) (dMasksOf rr.dom) p &&
        maskHas (timeMaskOf (bui31List rr.H)) p.H && doyPasses rr.doy p then
      [some ((makeEnum proto rr).times2 p.y p.m p.d p.H proto.ms)]
    else []
  judge := judgeProto rr.until_ proto
  entry _ x := ⟨x, none⟩

/-- `y < 1600U || !m || m > 12U || !d || d > 31U`. -/
def badStart (i : Instant) : Bool := i.y < 1600 || badDate i

/-- `if (count < nti) { .. goto fin if 0 } else if (rr->scale != SCALE_GREGORIAN) goto fin`. -/
def countOrScaleGone (rr : Rrulsp) (nti : Nat) : Bool :=
  if u32OfInt rr.count < nti then u32OfInt rr.count == 0 else rr.scale != .gregorian

/-- The position of a start instant in the loops below a day.  An all-day start begins at
midnight. -/
def timePos (i : Instant) : Pos :=
  let allday := i.H = echsAllDay
  { y := i.y, m := i.m, d := i.d
    H := if allday then 0 else i.H
    M := if allday then 0 else i.M
    S := if allday then 0 else i.S
    w := ymdGetWday i.y i.m i.d
    yd := ymdGetYd i.y i.m i.d
    maxd := getNdom i.y i.m
    maxy := yearDays i.y }

def rrulFillHly (tgt : Instant) (nti : Nat) (rr : Rrulsp) : Expander where
  loop := hlyLoop tgt rr
  room := clampCount rr nti
  start :=
    if countOrScaleGone rr nti || badStart tgt then .error .done
    -- only the hour is reset here
    else .ok { timePos tgt with M := tgt.M, S := tgt.S }

/-! ### Minutely -/

/-- Carry hours into days. -/
def carryHours (p : Pos) : Option Pos :=
  if 24 ≤ p.H then
    carry getNdom id { addDays p (p.H / 24) with H := p.H % 24 }
  else some p

def minlyStep (inter : Nat) (p : Pos) : Option Pos :=
  let M := u32 (p.M + inter)
  if 60 ≤ M then carryHours { p with H := u32 (p.H + M / 60), M := M % 60 }
  else some { p with M := M }

def minlyLoop (proto : Instant) (rr : Rrulsp) : Loop Pos Instant Slot where
  reload := none
  hop _ := false
  next := minlyStep rr.inter
  groups p :=
    if dayPasses (wdMaskAll rr.dow) (mMaskOf rr.mon) (dMasksOf rr.dom) p &&
        maskHas (timeMaskOf (bui31List rr.H)) p.H &&
        maskHas (timeMaskOf (bui63List rr.M)) p.M then
      [some ((makeEnum proto rr).times1 p.y p.m p.d p.H p.M proto.ms)]
    else []
  judge := judgeProto rr.until_ proto
  entry _ x := ⟨x, none⟩

/-- `rrul_fill_Mly`. -/
def rrulFillMinly (tgt : Instant) (nti : Nat) (rr : Rrulsp) : Expander where
  loop := minlyLoop tgt rr
  room := clampCount rr nti
  start :=
    if countOrScaleGone rr nti || badStart tgt then .error .done
    else .ok { timePos tgt with S := tgt.S }

/-! ### Secondly -/

def slyStep (inter : Nat) (p : Pos) : Option Pos :=
  let S := u32 (p.S + inter)
  if 60 ≤ S then
    let M := u32 (p.M + S / 60)
    if 60 ≤ M then
      carryHours { p with H := u32 (p.H + M / 60), M := M % 60, S := S % 60 }
    else some { p with M := M, S := S % 60 }
  else some { p with S := S }

def slyLoop (proto : Instant) (rr : Rrulsp) : Loop Pos Instant Slot where
  reload := none
  hop _ := false
  next := slyStep rr.inter
  groups p :=
    if dayPasses (wdMaskAll rr.dow) (mMaskOf rr.mon) (dMasksOf rr.dom) p &&
        maskHas (timeMaskOf (bui31List rr.H)) p.H &&
        maskHas (timeMaskOf (bui63List rr.M)) p.M &&
        maskHas (timeMaskOf (bui63List rr.S)) p.S then
      -- the milliseconds are what the slot was filled with
      [some [.pack p.y p.m p.d p.H p.M p.S proto.ms]]
    else []
  -- the start is not looked at
  judge x := if echsInstantLtP rr.until_ x then .fin else .emit
  entry _ x := ⟨x, none⟩

/-- `rrul_fill_Sly`. -/
def rrulFillSly (tgt : Instant) (nti : Nat) (rr : Rrulsp) : Expander where
  loop := slyLoop tgt rr
  room := clampCount rr nti
  start :=
    if countOrScaleGone rr nti || badStart tgt then .error .done
    else .ok (timePos tgt)

/-- The expander a frequency is given to by `refill`. -/
def rrulFill (tgt : Instant) (nti : Nat) (rr : Rrulsp) : Option Expander :=
  match rr.freq with
  | .none => none
  | .yearly => some (rrulFillYly tgt nti rr)
  | .monthly => some (rrulFillMly tgt nti rr)
  | .weekly => some (rrulFillWly tgt nti rr)
  | .daily => some (rrulFillDly tgt nti rr)
  | .hourly => some (rrulFillHly tgt nti rr)
  | .minutely => some (rrulFillMinly tgt nti rr)
  | .secondly => some (rrulFillSly tgt nti rr)

end Echse
