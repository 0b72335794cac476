/-
The loop over times of day: `ENUM_INIT`, `ENUM_COND` and `ENUM_ITER` of `evrrul.c`.

Three counters make one loop, and its condition does the carrying.  A form of fewer levels
names fewer of them; the others go by `auto_m` and `auto_h`, and are set to their last value but
one after each pass, so that there is no carrying into them.
-/
import Echse.Expand

namespace Echse

/-- The counters of the loop, whatever their names. -/
structure EnumIdx where
  s : Nat
  m : Nat
  h : Nat
deriving DecidableEq, Repr

/-- How many of the counters are named: seconds, minutes and seconds, or all of them. -/
inductive EnumForm where
  | one | two | three
deriving DecidableEq, Repr

/-- `-2U`. -/
def enumAuto : Nat := 4294967294

/-- `ENUM_INIT`. -/
def enumInit : EnumIdx := ⟨0, 0, 0⟩

/-- `ENUM_COND_H`. -/
def enumCondH (e : Enum) (i : EnumIdx) : Bool × EnumIdx :=
  let i := { i with h := i.h + 1 }
  if i.h < e.H.length then (true, i) else (false, { i with h := 0 })

/-- `ENUM_COND_M`. -/
def enumCondM (e : Enum) (i : EnumIdx) : Bool × EnumIdx :=
  let i := { i with m := i.m + 1 }
  if i.m < e.M.length then (true, i) else enumCondH e { i with m := 0 }

/-- `ENUM_COND`. -/
def enumCond (e : Enum) (i : EnumIdx) : Bool × EnumIdx :=
  if i.s < e.S.length then (true, i) else enumCondM e { i with s := 0 }

/-- `ENUM_ITER`. -/
def enumIter : EnumForm → EnumIdx → EnumIdx
  | .three, i => { i with s := i.s + 1 }
  | .two, i => { i with s := i.s + 1, h := enumAuto }
  | .one, i => { i with s := i.s + 1, m := enumAuto, h := enumAuto }

/-- The counters that the body has, from the hours on. -/
def EnumForm.named : EnumForm → EnumIdx → List Nat
  | .three, i => [i.h, i.m, i.s]
  | .two, i => [i.m, i.s]
  | .one, i => [i.s]

/-- The loop, for what its body gets to see; nothing while it is still at work. -/
def enumLoop (e : Enum) (k : EnumForm) : Nat → EnumIdx → Option (List (List Nat))
  | 0, _ => none
  | fuel + 1, i =>
      let (go, i) := enumCond e i
      if go then (enumLoop e k fuel (enumIter k i)).map (k.named i :: ·) else some []

end Echse
