/-
Epoch seconds: `__epoch_to_inst` of `tzob.c`, whose counterpart `__inst_to_epoch` is
with the zones in `Refill`.
-/
import Echse.Refill

namespace Echse

/-- `rem`, the remainders of the 32-adic days of a year that begins in March. -/
def remMarFeb : List Nat := [19, 19, 18, 16, 15, 13, 12, 11, 9, 8, 6, 5, 4, 1]

/-- `rm`, the months of such a year. -/
def monMarFeb : List Nat := [0, 3, 4, 5, 6, 7, 8, 9, 10, 11, 12, 1, 2, 0]

/-- The Freundt method: which month of the year from March on, and which day of it. -/
def marFebMd (doy : Nat) : Nat × Nat :=
  let mon := u32 (doy + 19) / 32
  let dom := u32 (doy + 19) % 32
  let beef := remMarFeb.getD mon 0
  let cake := remMarFeb.getD (mon + 1) 0
  if dom ≤ cake then (mon, u32OfInt (doy - (((mon : Int) - 1) * 32 - 19 + beef)))
  else (mon + 1, u32OfInt (doy - ((mon : Int) * 32 - 19 + cake)))

/-- The days before a year that begins in March, years counted from 1948. -/
def marFebDays (by_ : Nat) : Nat := u32 (u32 (by_ * 365) + by_ / 4)

/-- Years before the one of a day. -/
def marFebYear (d : Nat) : Nat :=
  if d ≤ marFebDays (d / 365) then u32OfInt (((d / 365 : Nat) : Int) - 1) else d / 365

/-- `__epoch_to_inst`, from 1970 on. -/
def epochToInst (t : Nat) : Instant :=
  let d := u32 (t / 86400 + 7977)
  let s := u32 (t % 86400)
  let by_ := marFebYear d
  let md := marFebMd (u32OfInt ((d : Int) - marFebDays by_))
  .pack (by_ + 1948 + if 10 < md.1 then 1 else 0) (monMarFeb.getD md.1 0) md.2
    (s / 60 / 60) (s / 60 % 60) (s % 60) echsAllDay

end Echse
