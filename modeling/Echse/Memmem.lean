/-
Looking for some bytes in others: `xmemmem` of `echsd.c` and of `echsq.c`.

The two differ in what they return only: a pointer or `NULL`, and an index or -1.  Here it
is the index or nothing.  A byte counts as the `unsigned int` that a `char` is promoted to,
which `asUint` gives.
-/
import Mathlib.Data.BitVec

namespace Echse.Memmem

section

variable {α : Type} [DecidableEq α] (asUint : α → BitVec 32)

/-- The first loop, up to the end of the needle or of the haystack: what is left of the
two, the sums, and whether they are equal so far. -/
def sums : (hp np : List α) → (hsum nsum : BitVec 32) → (eqp : Bool) →
    List α × List α × BitVec 32 × BitVec 32 × Bool
  | h :: hp, n :: np, hsum, nsum, eqp =>
      sums hp np (hsum ^^^ asUint h) (nsum ^^^ asUint n) (eqp && h == n)
  | hp, np, hsum, nsum, eqp => (hp, np, hsum, nsum, eqp)

/-- The second loop, with `cand` at the index `i` and `hp` a needle behind it. -/
def scan (ndl : List α) (nsum : BitVec 32) : (hp cand : List α) → (hsum : BitVec 32) → Nat → Option Nat
  | h :: hp, c :: cand, hsum, i =>
      let hsum := hsum ^^^ asUint c ^^^ asUint h
      if hsum = nsum ∧ cand.take (ndl.length - 1) = ndl.take (ndl.length - 1) then some (i + 1)
      else scan ndl nsum hp cand hsum (i + 1)
  | _, _, _, _ => none

/-- `xmemmem`. -/
def xmemmem (hay ndl : List α) : Option Nat :=
  match ndl with
  | [] => some 0
  | n :: np =>
      -- the `memchr` of the first byte
      let k := (hay.takeWhile (· ≠ n)).length
      match hay.drop k with
      | [] => none
      | h :: hp =>
          let (hp', np', hsum, nsum, eqp) := sums asUint hp np (asUint h) (asUint h) true
          if np' ≠ [] then none
          else if eqp then some k
          else scan asUint (n :: np) nsum hp' (h :: hp) hsum k

end

/-- A `char` as an `unsigned int`. -/
def charAsUint (c : BitVec 8) : BitVec 32 := c.signExtend 32

end Echse.Memmem
