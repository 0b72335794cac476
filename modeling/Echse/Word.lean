/-
Machine integers.

The C code computes in `unsigned int`, `int` and the bit fields of an instant.
Values are kept as `Nat` and `Int`; what follows are the conversions, and they
are written where the source can really wrap.
-/
import Mathlib.Data.Nat.Bitwise
import Mathlib.Data.Int.Lemmas
import Mathlib.Data.Int.ModEq
import Mathlib.Tactic

namespace Echse

/-- An `unsigned int`: 32 bits, wrapping. -/
def u32 (n : Nat) : Nat := n % 4294967296

/-- A signed value stored into a word of `w` bits. -/
def wordOfInt (w : Nat) (z : Int) : Nat := (z % (2 ^ w : Nat)).toNat

/-- A word of `w` bits read as a signed value, two's complement. -/
def intOfWord (w : Nat) (n : Nat) : Int :=
  if n % 2 ^ w < 2 ^ (w - 1) then ((n % 2 ^ w : Nat) : Int)
  else ((n % 2 ^ w : Nat) : Int) - (2 ^ w : Nat)

/-- An `int` used where the source has an `unsigned int`. -/
def u32OfInt (z : Int) : Nat := wordOfInt 32 z

@[simp] theorem u32_of_lt {n : Nat} (h : n < 4294967296) : u32 n = n :=
  Nat.mod_eq_of_lt h

theorem u32_lt (n : Nat) : u32 n < 4294967296 := Nat.mod_lt _ (by decide)

theorem u32_le (n : Nat) : u32 n ≤ n := Nat.mod_le _ _

theorem u32OfInt_ofNat {n : Nat} (h : n < 4294967296) : u32OfInt (n : Int) = n := by
  unfold u32OfInt wordOfInt
  omega

theorem u32OfInt_natCast (n : Nat) : u32OfInt (n : Int) = u32 n := by
  unfold u32OfInt wordOfInt u32
  omega

theorem u32OfInt_lt (z : Int) : u32OfInt z < 2 ^ 32 := by
  unfold u32OfInt wordOfInt
  omega

/-! Words stand for numbers up to multiples of 2^32. -/

theorem u32OfInt_congr {a b : Int} (h : a ≡ b [ZMOD 4294967296]) : u32OfInt a = u32OfInt b := by
  unfold u32OfInt wordOfInt
  exact congrArg Int.toNat h

theorem u32OfInt_modEq (z : Int) : ((u32OfInt z : Nat) : Int) ≡ z [ZMOD 4294967296] := by
  unfold u32OfInt wordOfInt Int.ModEq
  omega

theorem u32_modEq (n : Nat) : ((u32 n : Nat) : Int) ≡ n [ZMOD 4294967296] := by
  unfold u32 Int.ModEq
  omega

end Echse
