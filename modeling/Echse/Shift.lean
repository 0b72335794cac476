/-
Thinning and moving candidates: `clr_poss` and `shift` of `evrrul.c`.
-/
import Echse.Cand

namespace Echse

/-! ### Set positions -/

/-- Shave `p` candidates off `cand` from iterator position `ci` on: the last one seen
and the position after it.  Running out yields 0 and resets the iterator. -/
def shaveCand (cand : Bitints) : Nat → Int → Nat → Int × Nat
  | 0, c, ci => (c, ci)
  | p + 1, _, ci =>
      let r := bi383Next cand ci
      if r.2 = 0 then (r.1, 0) else shaveCand cand p r.1 r.2

/-- The state of `clr_poss`: the iterator over the candidates, the position it was
left at, and the survivors. -/
structure PossSt where
  ci : Nat
  prev : Int
  res : Bitints

def clrPossStep (cand : Bitints) (nbits : Nat) (st : PossSt) (pos : Int) : PossSt :=
  let pos := if pos < 0 then (nbits : Int) + pos + 1 else pos
  let reset := pos < st.prev
  let ci := if reset then 0 else st.ci
  let prev := if reset then 0 else st.prev
  let r := shaveCand cand (pos - prev).toNat 0 ci
  ⟨r.2, pos, if 0 < r.1 then assBi383 st.res r.1 else st.res⟩

def clrPoss (cand poss : Bitints) : Bitints :=
  if !bi383HasBits poss then cand
  else ((bi383List poss).foldl (clrPossStep cand (bi383List cand).length) ⟨0, 0, .nil⟩).res

/-! ### Shifting

Candidates that leave their year go into buckets of their own.
-/

/-- `bitint383_t cand[3U]`: this year's candidates, last year's and next year's. -/
structure Cands where
  this : Bitints
  prev : Bitints
  next : Bitints

def Cands.single (c : Bitints) : Cands := ⟨c, .nil, .nil⟩

/-- `ass_bi383(&res[(nu_y != y) << (nu_y > y)], x)`. -/
def Cands.put (c : Cands) (y nuY : Nat) (x : Int) : Cands :=
  if nuY = y then { c with this := assBi383 c.this x }
  else if y < nuY then { c with next := assBi383 c.next x }
  else { c with prev := assBi383 c.prev x }

/-- `reassess:`, bring a day back into its month.  Each turn moves `d` by a month
towards its range, so `d.natAbs + 1` turns suffice. -/
def reassess : Nat → Nat → Int → Int → Nat × Int × Int
  | 0, y, m, d => (y, m, d)
  | fuel + 1, y, m, d =>
      if d ≤ 0 then
        let y' := if m - 1 ≤ 0 then u32OfInt ((y : Int) - 1) else y
        let m' := if m - 1 ≤ 0 then m - 1 + 12 else m - 1
        reassess fuel y' m' (d + getNdom y' m'.toNat)
      else if (getNdom y m.toNat : Int) < d then
        let y' := if 12 < m + 1 then u32 (y + 1) else y
        let m' := if 12 < m + 1 then m + 1 - 12 else m + 1
        reassess fuel y' m' (d - getNdom y m.toNat)
      else (y, m, d)

/-- Record a moved candidate in its bucket. -/
def Cands.putDay (c : Cands) (y : Nat) (m d : Int) : Cands :=
  let (nuY, nuM, nuD) := reassess (d.natAbs + 2) y m d
  c.put y nuY (packCand nuM.toNat nuD)

/-- The words of a set in memory, `pos` and then `neg`. -/
def Bitints.words : Bitints → List Nat
  | .native xs =>
      (2 * xs.length :: List.replicate 11 0) ++
        (xs.map (wordOfInt 32) ++ List.replicate (12 - xs.length) 0)
  | .bits b => (List.range 24).map fun k => b >>> (32 * k) % 2 ^ 32

/-- The set that words in memory stand for.  A count beyond the array is cut off at its
end, where the C code reads on. -/
def Bitints.ofWords (ws : List Nat) : Bitints :=
  if ws.headD 0 % 2 = 1 then .bits (ws.foldr (fun w acc => acc * 2 ^ 32 + w) 0)
  else .native (((ws.drop 12).take (ws.headD 0 / 2)).map (intOfWord 32))

/-- `cand[0U].pos[i] ^= cand[j].pos[i]` and the same for `neg`. -/
def Bitints.xor (a b : Bitints) : Bitints :=
  .ofWords (List.zipWith Nat.xor a.words b.words)

/-- The movement by days. -/
def shiftDays (cand : Bitints) (y : Nat) (d : Int) : Cands :=
  (bi383List cand).foldl (fun res c =>
    let md := unpackCand c
    res.putDay y md.m (md.d + d)) ⟨.nil, .nil, .nil⟩

/-- How a business-day movement by `b` changes a day of the month that falls on `w`. -/
def bdayOffs (w : Nat) (b : Int) (neg inv : Bool) : Int :=
  let one : Int := if b ≠ 0 ∧ inv = false then 1 else 0
  let off : Int := if w < wdaySat then 0 else if neg then -((w : Int) - 5) else 8 - (w : Int)
  let nuB := if w < wdaySat then b else if neg then b + one else b - one
  let w := if w < wdaySat then w else if neg then wdayFri else wdayMon
  let u5 := u32OfInt ((w : Int) + 384 + nuB) % 5
  let nuB := Int.tdiv nuB 5 * 7 + Int.tmod nuB 5
  let u7 := u32OfInt ((w : Int) + 384 + nuB) % 7
  -- u5 is the day we want to be on, u7 the day we land on
  off + nuB + ((u5 : Int) - u7) + if 0 < nuB ∧ u5 < u7 then 7 else 0

/-- The movement by business days. -/
def shiftBdays (cand : Bitints) (y : Nat) (sh : Int) : Cands :=
  (bi383List cand).foldl (fun res c =>
    let md := unpackCand c
    let w := ymdGetWday y md.m md.d
    res.putDay y md.m
      (md.d + bdayOffs w (echsShiftBvalue sh) (echsShiftNegP sh) (echsShiftInvP sh)))
    ⟨.nil, .nil, .nil⟩

def shift (cand : Cands) (y : Nat) (sh : Int) : Cands :=
  if sh = 0 then cand
  else
    let cand := if echsShiftDvalue sh ≠ 0 then shiftDays cand.this y (echsShiftDvalue sh) else cand
    if echsShiftBdayP sh then
      -- merge all the off-year candidates from above
      let this :=
        if echsShiftDvalue sh ≠ 0 then (cand.this.xor cand.prev).xor cand.next else cand.this
      shiftBdays this y sh
    else cand

end Echse
