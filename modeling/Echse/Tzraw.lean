/-
Zone files: `tzraw.c`, from the table of transitions on.

A file has the times of its transitions, the type that begins with each, and the offsets
of the types.  The range that was looked up last is kept in the file's `cache`.
-/
import Echse.Word

namespace Echse

def intMin : Int := -2147483648
def intMax : Int := 2147483647

/-- `coord_zone_t`. -/
inductive CoordZone where
  | unk | utc | tai | gps
deriving DecidableEq, Repr

/-- `struct zif_s`, less its cache. -/
structure Zif where
  /-- Transitions. -/
  trs : List Int
  /-- The type after each of them. -/
  tys : List Nat
  /-- `offs` of the types. -/
  tda : List Int
  cz : CoordZone
deriving Repr

namespace Zif

def ntrans (z : Zif) : Nat := z.trs.length

/-- `zif_trans`. -/
def trans (z : Zif) (n : Int) : Int :=
  if z.ntrans = 0 ∨ n < 0 then intMin
  else if z.ntrans ≤ n then z.trs.getD (z.ntrans - 1) 0
  else z.trs.getD n.toNat 0

/-- `zif_type`. -/
def type (z : Zif) (n : Int) : Nat :=
  if z.ntrans = 0 ∨ n < 0 then 0
  else if z.ntrans ≤ n then z.tys.getD (z.ntrans - 1) 0
  else z.tys.getD n.toNat 0

/-- `zif_troffs`. -/
def troffs (z : Zif) (n : Int) : Int := z.tda.getD (z.type n) 0

end Zif

/-- `struct zrng_s`: from `prev` on and before `next` the offset is `offs`. -/
structure Zrng where
  prev : Int
  next : Int
  offs : Int
  trno : Nat
deriving DecidableEq, Repr

/-- The cache of a zone file that has just been mapped. -/
def Zrng.zero : Zrng := ⟨0, 0, 0, 0⟩

/-- A value in `signed int offs:24`. -/
def int24 (x : Int) : Int := intOfWord 24 (wordOfInt 24 x)

/-- The loop of `__find_trno`; nothing while it is still at work. -/
def findTrnoLoop (z : Zif) (t : Int) : Nat → Nat → Nat → Option Int
  | 0, _, _ => none
  | fuel + 1, min, max =>
      let this := (min + max) / 2
      let tl := z.trans this
      let tu := z.trans (this + 1 : Nat)
      if tl ≤ t ∧ t < tu then some this
      else if tu ≤ t then findTrnoLoop z t fuel this max
      else if t < tl then findTrnoLoop z t fuel min this
      else findTrnoLoop z t fuel min max

/-- `__find_trno`. -/
def findTrno (fuel : Nat) (z : Zif) (t : Int) (min max : Nat) : Option Int :=
  if max = 0 then some (-1)
  else if t < z.trans min then some (-1)
  else if z.trans max < t then some ((max : Int) - 1)
  else findTrnoLoop z t fuel min max

/-- `__find_zrng` from when the number of the transition is known. -/
def Zif.zrng (z : Zif) (t trno : Int) : Zrng :=
  let prev := z.trans trno
  if trno ≤ 0 ∧ t < prev then
    -- assume the first offset has always been there
    ⟨intMin, intMin, int24 (z.troffs 0), 0⟩
  else if trno < 0 then
    -- special case where no transitions are recorded
    ⟨intMin, intMax, int24 (z.troffs 0), 0⟩
  else
    let no := trno.toNat % 256
    ⟨prev, if trno + 1 < z.ntrans then z.trans (trno + 1) else intMax, int24 (z.troffs no), no⟩

/-- `__find_zrng`. -/
def findZrng (fuel : Nat) (z : Zif) (t : Int) (min max : Nat) : Option Zrng :=
  (findTrno fuel z t min max).map (z.zrng t)

/-- `zif_find_zrng`: the whole table is searched. -/
def zifFindZrng (fuel : Nat) (z : Zif) (t : Int) : Option Zrng := findZrng fuel z t 0 z.ntrans

/-- `__offs`: the offset of `t`, and the cache. -/
def offs (fuel : Nat) (z : Zif) (c : Zrng) (t : Int) : Option (Int × Zrng) :=
  if z.cz = .utc then some (0, c)
  else if c.prev ≤ t ∧ t < c.next then some (c.offs, c)
  else
    -- what comes after the cached range, or before it
    let r := if c.next ≤ t then findZrng fuel z t (c.trno + 1) z.ntrans
      else if t < c.prev then findZrng fuel z t 0 c.trno
      else findZrng fuel z t 0 0
    r.map fun r => (r.offs, r)

/-- One query after another. -/
def offsRun (fuel : Nat) (z : Zif) : Zrng → List Int → Option (List Int)
  | _, [] => some []
  | c, t :: ts => do
      let r ← offs fuel z c t
      let os ← offsRun fuel z r.2 ts
      some (r.1 :: os)

/-! ### Local times

A zone is taken for its offsets, which `__offs` gives for time stamps.
-/

/-- The loop of `zif_utc_time`; nothing while it is still at work. -/
def zifUtcTimeLoop (o : Int → Int) (t : Int) : Nat → Int → Int → Option Int
  | 0, _, _ => none
  | fuel + 1, xi, old =>
      let xj := o (t - xi)
      if xj ≠ xi ∧ xi ≠ old then zifUtcTimeLoop o t fuel xj xj else some (t - xj)

/-- `zif_local_time`. -/
def zifLocalTime (o : Int → Int) (t : Int) : Int := t + o t

end Echse
