/-
Recurrence rules: `struct rrulsp_s` of `evrrul.h`, the shift codes of `shift.h`.
-/
import Echse.Bitint
import Echse.Scale

namespace Echse

inductive Freq where
  | none | yearly | monthly | weekly | daily | hourly | minutely | secondly
deriving DecidableEq, Repr

/-- `struct rrulsp_s`. -/
structure Rrulsp where
  freq : Freq := .none
  scale : Scale := .gregorian
  /-- An `int`; -1 is no COUNT. -/
  count : Int := -1
  /-- An `unsigned int`. -/
  inter : Nat := 1
  until_ : Instant := echsMaxInstant
  /-- An `echs_shift_t`, a 32-bit `int`. -/
  shift : Int := 0
  dom : Bitint := ⟨0, 0⟩
  doy : Bitints := .nil
  /-- Weekdays with their counts, packed by `packCd`. -/
  dow : Bitints := .nil
  mon : Nat := 0
  wk : Bitint := ⟨0, 0⟩
  H : Nat := 0
  M : Nat := 0
  S : Nat := 0
  pos : Bitints := .nil
  easter : Bitints := .nil
deriving DecidableEq

/-! ### Counted weekdays -/

/-- `struct cd_s`: the `cnt`-th weekday `dow`, or any of them for `cnt = 0`. -/
structure Cd where
  cnt : Int
  dow : Nat
deriving DecidableEq, Repr

def packCd (cd : Cd) : Int := cd.cnt * 8 + cd.dow

def unpackCd (cd : Int) : Cd := ⟨cd / 8, (cd % 8).toNat⟩

/-! ### Shift codes

The high 16 bits move by days, the next 14 by business days, then come the
inversion flag and the sign of the business-day movement.
-/

/-- The low 16 bits, as an unsigned value. -/
def shiftLow (sh : Int) : Nat := (sh % 65536).toNat

def echsShiftBdayP (sh : Int) : Bool := shiftLow sh != 0
def echsShiftNegP (sh : Int) : Bool := shiftLow sh % 2 == 1
def echsShiftInvP (sh : Int) : Bool := shiftLow sh / 2 % 2 == 1
def echsShiftAbsval (sh : Int) : Nat := shiftLow sh / 4

def echsShiftBvalue (sh : Int) : Int :=
  if shiftLow sh % 2 = 0 then (shiftLow sh / 4 : Nat) else -((shiftLow sh / 4 : Nat) : Int)

def echsShiftDvalue (sh : Int) : Int := sh / 65536

end Echse
