/-
Instants: `instant.h`, and the parts of `scale.h` and `tzob.h` that keep a calendar
scale and a time zone in an instant's unused bits.

`echs_instant_t` is a 64-bit word of bit fields.  A store into a field cuts the
value off, which `Instant.pack` does, and the comparisons look at the word as a
whole, which `Instant.u` gives.
-/
import Echse.Word

namespace Echse

structure Instant where
  y : Nat
  m : Nat
  d : Nat
  H : Nat
  M : Nat
  S : Nat
  ms : Nat
  /-- Every field holds what its width allows. -/
  fits : y < 65536 ∧ m < 256 ∧ d < 256 ∧ H < 256 ∧ M < 256 ∧ S < 64 ∧ ms < 1024
deriving DecidableEq

namespace Instant

/-- Storing into the bit fields. -/
def pack (y m d H M S ms : Nat) : Instant where
  y := y % 65536
  m := m % 256
  d := d % 256
  H := H % 256
  M := M % 256
  S := S % 64
  ms := ms % 1024
  fits := by omega

instance : Repr Instant where
  reprPrec i _ := repr (i.y, i.m, i.d, i.H, i.M, i.S, i.ms)

/-- The 64-bit word of an instant. -/
def u (i : Instant) : Nat :=
  (((((i.y * 256 + i.m) * 256 + i.d) * 256 + i.H) * 256 + i.M) * 64 + i.S) * 1024 + i.ms

end Instant

def echsAllDay : Nat := 0xff
def echsAllSec : Nat := 0x3ff

def echsNulInstant : Instant := .pack 0 0 0 0 0 0 0
def echsMaxInstant : Instant := .pack 0xffff 0xff 0xff 0xff 0xff 0x3f 0x3ff

def echsNulInstantP (i : Instant) : Bool := i.u == 0
def echsMaxInstantP (i : Instant) : Bool := i.u == 2 ^ 64 - 1
def echsInstantAllDayP (i : Instant) : Bool := i.H == echsAllDay
def echsInstantAllSecP (i : Instant) : Bool := i.ms == echsAllSec

/-- `x.H++, x.ms++` of the comparisons: the all-day and the all-second marks, being
all ones, wrap to 0 and so come first. -/
def bumped (i : Instant) : Instant := .pack i.y i.m i.d (i.H + 1) i.M i.S (i.ms + 1)

def echsInstantLtP (x y : Instant) : Bool := decide ((bumped x).u < (bumped y).u)
def echsInstantLeP (x y : Instant) : Bool := !decide ((bumped y).u < (bumped x).u)
def echsInstantEqP (x y : Instant) : Bool := x.u == y.u

/-! ### Calendar scales -/

/-- All the calendars there are. -/
inductive Scale where
  | gregorian
  | hijriIA | hijriIC | hijriIIA | hijriIIC | hijriIIIA | hijriIIIC | hijriIVA | hijriIVC
  | hijriUmmulqura | hijriDiyanet
deriving DecidableEq, Repr

/-- The `echs_scale_t` behind a scale. -/
def Scale.num : Scale → Nat
  | gregorian => 0
  | hijriIA => 1 | hijriIC => 2 | hijriIIA => 3 | hijriIIC => 4
  | hijriIIIA => 5 | hijriIIIC => 6 | hijriIVA => 7 | hijriIVC => 8
  | hijriUmmulqura => 9 | hijriDiyanet => 10

/-- The scale a number stands for, if any. -/
def Scale.ofNum : Nat → Option Scale
  | 0 => some gregorian
  | 1 => some hijriIA | 2 => some hijriIC | 3 => some hijriIIA | 4 => some hijriIIC
  | 5 => some hijriIIIA | 6 => some hijriIIIC | 7 => some hijriIVA | 8 => some hijriIVC
  | 9 => some hijriUmmulqura | 10 => some hijriDiyanet
  | _ => none

/-- The scale bits are the top four of the year. -/
def echsInstantScale (i : Instant) : Nat := i.y / 4096

def echsInstantDetachScale (i : Instant) : Instant :=
  .pack (i.y % 4096) i.m i.d i.H i.M i.S i.ms

def echsInstantAttachScale (i : Instant) (s : Scale) : Instant :=
  .pack (i.y % 4096 + s.num * 4096) i.m i.d i.H i.M i.S i.ms

/-! ### Time zones

A zone handle takes the top four bits of the month and the top two of the day
(`ECHS_DMASK`).
-/

def echsInstantTzob (i : Instant) : Nat := i.m / 16 * 16 * 256 + i.d / 64 * 64

def echsInstantDetachTzob (i : Instant) : Instant :=
  .pack i.y (i.m % 16) (i.d % 64) i.H i.M i.S i.ms

def echsInstantAttachTzob (i : Instant) (z : Nat) : Instant :=
  .pack i.y (i.m % 16 + z / 256 / 16 * 16) (i.d % 64 + z / 64 * 64 % 256) i.H i.M i.S i.ms

end Echse
