/-
String lists: `strlst.c`.

A list has a pool of bytes, with one string after another, and the pointers to them.  How big
the pool is is not kept but worked out from what is in it.  Allocation does not fail here: a
call comes with the address that the pool gets if there has to be a new one.
-/
import Echse.Lib.Blocks

namespace Echse

/-- `ilog_ceil_exp`. -/
def ilogCeilExp (n : Nat) : Nat :=
  let n := n ||| 0b1111
  let n := n ||| n >>> 1
  let n := n ||| n >>> 2
  let n := n ||| n >>> 4
  let n := n ||| n >>> 8
  let n := n ||| n >>> 16
  let n := n ||| n >>> 32
  (n + 1) % 2 ^ 64

/-- `struct strlst_s`: the pool and where it is, and the pointers, of which `NULL` is none. -/
structure Strlst where
  at_ : Int
  s : List (Option Char)
  i : Nat
  nl : Nat
  l : List (Option (Option Int))

/-- The loop that adjusts pointers, up to the first that is `NULL`. -/
def adjustPtrs (d : Int) : List (Option (Option Int)) → Option (List (Option (Option Int)))
  | some (some p) :: l => (adjustPtrs d l).map (some (some (p + d)) :: ·)
  | some none :: l => some (some none :: l)
  -- there is none
  | none :: _ => none
  | [] => none

/-- The list with room for `n` bytes and a zero. -/
def strlstRoom (nuS : Int) (sl : Option Strlst) (n : Nat) : Option Strlst :=
  match sl with
  | none => some ⟨nuS, Blocks.alloc (ilogCeilExp (n + 1)), 0, 0, Blocks.alloc 16⟩
  | some res =>
      let z := ilogCeilExp res.i
      if z < res.i + n + 1 then
        -- realloc the string pool, and adjust existing pointers
        (adjustPtrs (nuS - res.at_) res.l).map fun l => { res with
          at_ := nuS
          s := Blocks.resize res.s (ilogCeilExp (res.i + n + 1))
          l := l }
      else some res

/-- `strlst_addn`; nothing once it writes outside of what is allocated. -/
def strlstAddn (nuS : Int) (sl : Option Strlst) (s : List Char) : Option Strlst := do
  let res ← strlstRoom nuS sl s.length
  let zl := ilogCeilExp res.nl
  let l := if zl ≤ res.nl + 1 then Blocks.resize res.l (2 * zl) else res.l
  -- now it's time for beef
  let l ← Blocks.put l res.nl (some (res.at_ + res.i))
  let l ← Blocks.put l (res.nl + 1) none
  -- and dessert
  let pool ← Blocks.paste res.s res.i s
  let pool ← Blocks.put pool (res.i + s.length) '\x00'
  some { res with s := pool, i := res.i + s.length + 1, nl := res.nl + 1, l := l }

/-- One call after another, each with its string and where the pool would go. -/
def strlstRun : Option Strlst → List (Int × List Char) → Option (Option Strlst)
  | sl, [] => some sl
  | sl, (nuS, s) :: calls => do
      let res ← strlstAddn nuS sl s
      strlstRun (some res) calls

end Echse
