/-
Durations and ranges as texts: `idiff_strf`, `range_strf` and `range_strp` of `dt-strpf.c`.

`idiff_strf` watches the end of its buffer and stops where a part does not fit.  The range
writer is given with room enough, as the date writers are.
-/
import Echse.DtStrp
import Echse.Event
import Echse.Icalify

namespace Echse

/-! ### Numbers without padding -/

def deBruijns : List Nat :=
  [1, 10, 2, 11, 14, 22, 3, 30,
    12, 15, 17, 19, 23, 26, 4, 31,
    9, 13, 21, 29, 16, 18, 25, 8,
    20, 28, 24, 7, 27, 6, 5, 32]

/-- Every bit below the topmost one is set. -/
def smear (n : Nat) : Nat :=
  let n := n ||| n >>> 1
  let n := n ||| n >>> 2
  let n := n ||| n >>> 4
  let n := n ||| n >>> 8
  n ||| n >>> 16

/-- The exponent of the next power of 2, at least 4 though. -/
def ilog2Ceil (n : Nat) : Nat :=
  deBruijns.getD (u32 (smear (n ||| 0b1111) * 0x07c4acdd) >>> 27) 0

def tenPows : List Nat :=
  [1, 10, 100, 1000, 10000, 100000, 1000000, 10000000, 100000000, 1000000000]

/-- The number of digits, from an estimate by the bits. -/
def ilog10Ceil (n : Nat) : Nat :=
  let l2 := (ilog2Ceil n * 1233) >>> 12
  l2 + if tenPows.getD l2 0 ≤ n then 1 else 0

/-- The last digits of `d`, written from the right. -/
def lastDigits : Nat → Nat → List Char
  | 0, _ => []
  | i + 1, d => lastDigits i (d / 10) ++ [(d % 10).digitChar]

/-- `ui32tostr`: the number where it fits, else nothing. -/
def ui32tostr (bsz d : Nat) : List Char :=
  let l := ilog10Ceil d
  if bsz ≤ l then [] else lastDigits l d

/-! ### Durations -/

/-- A part of a duration, unless it is zero.  The number is left out where it does not fit.
In a full buffer the letter is left out too and the writer goes to its end, just as nothing
of the later parts would fit. -/
def putUnit (bsz : Nat) (unit : Char) (tmp : Nat) (buf : List Char) : List Char :=
  if tmp = 0 then buf
  else
    let buf := buf ++ ui32tostr (bsz - buf.length) tmp
    if bsz ≤ buf.length then buf else buf ++ [unit]

/-- `idiff_strf`, of a duration in milliseconds. -/
def idiffStrf (bsz : Nat) (idiff : Int) : List Char :=
  if bsz < 4 then []
  else
    let buf := if idiff < 0 then ['-', 'P'] else ['P']
    let d := idiff.natAbs
    let buf :=
      if d = 0 then buf ++ ['0', 'D']
      else
        let tmp := u32 (d / 86400000)
        let d := if tmp = 0 then d else d % 86400000
        let buf := putUnit bsz 'D' tmp buf
        if d = 0 ∨ bsz ≤ buf.length then buf
        else
          let buf := putUnit bsz 'H' (u32 (d / 3600000)) (buf ++ ['T'])
          let buf := putUnit bsz 'M' (d % 3600000 / 60000) buf
          putUnit bsz 'S' (d % 3600000 % 60000 / 1000) buf
    if buf.length < bsz then buf else buf.dropLast

/-! ### Ranges -/

/-- `range_strf`.  An open lower end is nothing, an open upper end a plus. -/
def rangeStrf (r : EchsRange) : List Char :=
  if echsNulInstantP r.beg && echsMaxInstantP r.fin then ['*']
  else
    (if echsNulInstantP r.beg then [] else dtStrf r.beg) ++
      if echsMaxInstantP r.fin then ['+'] else '/' :: dtStrf r.fin

/-- `range_strp`, and where it leaves the pointer if it sets it. -/
def rangeStrp (str : List Char) (len : Nat) : EchsRange × Option (List Char) :=
  let err := (⟨echsNulInstant, echsMaxInstant⟩, none)
  if len = 0 then err
  else
    let (beg, op) :=
      if str.headD '\x00' = '-' then (echsNulInstant, str)
      -- where there is no date, the pointer stays
      else (dtStrpOn str len).getD (echsNulInstant, str)
    if op.headD '\x00' = '/' then
      let z := (len + 2 ^ 64 - (str.length - op.tail.length)) % 2 ^ 64
      match dtStrpOn op.tail z with
      | some (fin, on) => (⟨beg, fin⟩, some on)
      | none => (⟨beg, echsNulInstant⟩, none)
    else if op.headD '\x00' = '+' then (⟨beg, echsMaxInstant⟩, some op.tail)
    else err

end Echse
