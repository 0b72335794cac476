/-
The compact integer sets of `bitint.h`, `bitint.c` and `bitint-bobs.c`.

Each type stores one value natively and turns into a bit set when a second one is
assigned.  A set is only ever read through its iterator, a `next` function that
takes and returns a position; position 0 means both "from the start" and "no
more", and several of the readers below depend on that double use.
-/
import Echse.Word

namespace Echse

/-- The inner `for (; !(bi & 0b1U); (*iter)++, bi >>= 1U)` of the iterators: the
first set bit at or after `i`. -/
def scanBit (bi : Nat) : Nat → Nat → Nat
  | 0, i => i
  | fuel + 1, i => if bi.testBit i then i else scanBit bi fuel (i + 1)

/-- The values seen by `for (iter = 0; (tmp = next(&iter, bi), iter);)`. -/
def drain {α : Type} (next : Nat → α × Nat) : Nat → Nat → List α
  | 0, _ => []
  | fuel + 1, iter =>
      if (next iter).2 = 0 then [] else (next iter).1 :: drain next fuel (next iter).2

/-! ### Sets of unsigned values: `bituint31_t` and `bituint63_t`

LSB set means one integer, 0 means nothing, anything else is a bit set shifted
left by one.  `w` is the width of the word.
-/

def assBui (w bi x : Nat) : Nat :=
  if bi = 0 then (x <<< 1 ||| 1) % 2 ^ w
  else if bi % 2 = 1 then
    -- degrade
    (1 <<< (bi >>> 1 + 1) ||| 1 <<< (x + 1)) % 2 ^ w
  else (bi ||| 1 <<< (x + 1)) % 2 ^ w

def buiNext (w bi iter : Nat) : Nat × Nat :=
  if bi % 2 = 1 then
    if iter ≠ 0 then (0, 0) else (bi >>> 1, bi >>> 1)
  else if bi >>> 1 >>> iter ≠ 0 then
    (scanBit (bi >>> 1) w iter, scanBit (bi >>> 1) w iter + 1)
  else (0, 0)

def buiHasBit (bi x : Nat) : Bool :=
  if bi % 2 = 1 then bi >>> 1 == x else bi.testBit (x + 1)

def assBui31 (bi x : Nat) : Nat := assBui 32 bi x
def assBui63 (bi x : Nat) : Nat := assBui 64 bi x
def bui31Next (bi iter : Nat) : Nat × Nat := buiNext 32 bi iter
def bui63Next (bi iter : Nat) : Nat × Nat := buiNext 64 bi iter
def bui31HasBit (bi x : Nat) : Bool := buiHasBit bi x
def bui31HasBits (bi : Nat) : Bool := bi != 0
def bui63HasBits (bi : Nat) : Bool := bi != 0

/-- What iterating over a `bituint31_t` yields. -/
def bui31List (bi : Nat) : List Nat := drain (bui31Next bi) 33 0

/-- What iterating over a `bituint63_t` yields. -/
def bui63List (bi : Nat) : List Nat := drain (bui63Next bi) 65 0

/-! ### Sets of signed values: `bitint31_t` and `bitint63_t`

LSB set in `pos` means one integer, held in `neg`.  Nothing set means nothing.
Otherwise `pos` is the bit set of the positive members and `neg` the bit set of
the others, negated.
-/

structure Bitint where
  pos : Nat
  neg : Nat
deriving DecidableEq, Repr

def assBi (w : Nat) (bi : Bitint) (x : Int) : Bitint :=
  if bi.pos = 0 ∧ bi.neg = 0 then ⟨1, wordOfInt w x⟩
  else
    let bi' : Bitint :=
      if bi.pos % 2 = 1 then
        -- degrade
        if 0 < intOfWord w bi.neg then ⟨1 <<< (intOfWord w bi.neg).toNat, 0⟩
        else ⟨0, 1 <<< (-intOfWord w bi.neg).toNat⟩
      else bi
    if 0 < x then ⟨(bi'.pos ||| 1 <<< x.toNat) % 2 ^ w, bi'.neg⟩
    else ⟨bi'.pos, (bi'.neg ||| 1 <<< (-x).toNat) % 2 ^ w⟩

def biNext (w : Nat) (bi : Bitint) (iter : Nat) : Int × Nat :=
  if bi.pos % 2 = 1 then
    if iter ≠ 0 then (0, 0) else (intOfWord w bi.neg, 1)
  else if iter = 0 ∧ bi.neg % 2 = 1 then
    -- get the naught out first
    (0, 1)
  else if iter < w ∧ bi.pos >>> iter ≠ 0 then
    let i := scanBit bi.pos w iter
    -- past the last positive the iterator switches to the negatives
    ((i : Int), if 1 < bi.pos >>> i then i + 1 else w + 1)
  else if w < iter ∧ iter < 2 * w ∧ bi.neg >>> (iter - w) ≠ 0 then
    let i := scanBit bi.neg w (iter - w)
    (-(i : Int), w + i + 1)
  else (0, 0)

def biHasBits (bi : Bitint) : Bool := bi.pos != 0 || bi.neg != 0

def biHasBit (w : Nat) (bi : Bitint) (x : Int) : Bool :=
  if bi.pos % 2 = 1 then intOfWord w bi.neg == x
  else if 0 < x then bi.pos.testBit x.toNat
  else bi.neg.testBit (-x).toNat

def assBi31 (bi : Bitint) (x : Int) : Bitint := assBi 32 bi x
def assBi63 (bi : Bitint) (x : Int) : Bitint := assBi 64 bi x
def bi31Next (bi : Bitint) (iter : Nat) : Int × Nat := biNext 32 bi iter
def bi63Next (bi : Bitint) (iter : Nat) : Int × Nat := biNext 64 bi iter
def bi31HasBits (bi : Bitint) : Bool := biHasBits bi
def bi63HasBits (bi : Bitint) : Bool := biHasBits bi
def bi31HasBit (bi : Bitint) (x : Int) : Bool := biHasBit 32 bi x

/-- What iterating over a `bitint31_t` yields. -/
def bi31List (bi : Bitint) : List Int := drain (bi31Next bi) 66 0

/-- What iterating over a `bitint63_t` yields. -/
def bi63List (bi : Bitint) : List Int := drain (bi63Next bi) 130 0

/-! ### Wide sets: `bitint383_t` and `bitint447_t`

`n` is the number of words in each of `pos` and `neg`, 12 or 14.  Up to `n` values
are held natively, sorted, in `neg`, and the LSB of `pos[0]` says that the two
arrays have become bit sets.  They lie next to each other, so the `2 * n` words are
one row of bits: bit `x` for a positive `x`, bit `32 * n - x` for the others, and a
positive value too big for `pos` runs over into `neg`.
-/

inductive Bitints where
  | native (xs : List Int)
  | bits (b : Nat)
deriving DecidableEq, Repr

/-- The set nothing has been assigned to. -/
def Bitints.nil : Bitints := .native []

/-- `ass_bs` of `bitint-bobs.c`. -/
def assBs (n b : Nat) (x : Int) : Nat :=
  if 0 < x then b ||| 1 <<< x.toNat else b ||| 1 <<< (32 * n + (-x).toNat)

/-- `ass_int` of `bitint-bobs.c`: insertion into the sorted native values, zero and
the positives ascending and then the negatives descending, without duplicates. -/
def assInt (x : Int) : List Int → List Int
  | [] => [x]
  | y :: ys =>
      if (0 ≤ x ∧ 0 ≤ y ∧ y < x) ∨ (x < 0 ∧ x < y) then y :: assInt x ys
      else if y = x then y :: ys
      else x :: y :: ys

def assBints (n : Nat) (bi : Bitints) (x : Int) : Bitints :=
  match bi with
  | .native xs =>
      if xs.length < n then .native (assInt x xs)
      else .bits (assBs n (xs.foldl (assBs n) 1) x)
  | .bits b => .bits (assBs n b x)

/-- The first set bit of `b` from `lo` up to but not including `hi`. -/
def nextBit (b lo hi : Nat) : Option Nat :=
  if scanBit b (hi - lo) lo < hi then some (scanBit b (hi - lo) lo) else none

/-- The negative half of `bi383_next`, from row position `lo` on. -/
def bintsNextNeg (n b lo : Nat) : Int × Nat :=
  match nextBit b lo (64 * n) with
  | some p => (-((p - 32 * n : Nat) : Int), p + 1)
  | none => (0, 0)

def bintsNext (n : Nat) (bi : Bitints) (iter : Nat) : Int × Nat :=
  match bi with
  | .native xs =>
      match xs[iter]? with
      | none => (0, 0)
      | some x => (x, iter + 1)
  | .bits b =>
      if iter = 0 ∧ b.testBit (32 * n) = true then
        -- get the naught out now
        (0, 1)
      else
        let it := if iter = 0 then 1 else iter
        if it < 32 * n then
          match nextBit b it (32 * n) with
          | some p => ((p : Int), p + 1)
          | none => bintsNextNeg n b (32 * n + 1)
        else if 32 * n < it ∧ it < 64 * n then bintsNextNeg n b it
        else (0, 0)

def bintsHasBits : Bitints → Bool
  | .native xs => !xs.isEmpty
  | .bits _ => true

def assBi383 (bi : Bitints) (x : Int) : Bitints := assBints 12 bi x
def assBi447 (bi : Bitints) (x : Int) : Bitints := assBints 14 bi x
def bi383Next (bi : Bitints) (iter : Nat) : Int × Nat := bintsNext 12 bi iter
def bi447Next (bi : Bitints) (iter : Nat) : Int × Nat := bintsNext 14 bi iter
def bi383HasBits (bi : Bitints) : Bool := bintsHasBits bi
def bi447HasBits (bi : Bitints) : Bool := bintsHasBits bi

/-- What iterating over a `bitint383_t` yields. -/
def bi383List (bi : Bitints) : List Int := drain (bi383Next bi) 769 0

/-- What iterating over a `bitint447_t` yields. -/
def bi447List (bi : Bitints) : List Int := drain (bi447Next bi) 897 0

end Echse
