/-
Open zone files: `__tzob_zif` of `tzob.c`.

The files that are asked for most often are kept open.  There are 16 slots, each with a handle
and how often it has been asked for, and next to it the file.  A slot whose handle is 0 is
free, or so the search takes it.
-/
import Echse.Tzraw
import Echse.Zones

namespace Echse

/-- A file that has been opened; every opening of one is another object. -/
structure OpenZif where
  id : Nat
  zif : Zif

/-- An element of `tmfu`. -/
structure MfuSlot where
  z : Nat
  cnt : Nat

/-- `tmfu` and `zmfu`, with the number of files that have been opened and those of them that
have been closed again. -/
structure ZifCache where
  tmfu : Nat → MfuSlot
  zmfu : Nat → Option OpenZif
  opened : Nat
  closed : List Nat

namespace ZifCache

def init : ZifCache := ⟨fun _ => ⟨0, 0⟩, fun _ => none, 0, []⟩

end ZifCache

/-- The loop over all slots but the last: where it ends, and whether the handle is there. -/
def mfuLoop (tmfu : Nat → MfuSlot) (zob : Nat) : Nat → Nat → Nat × Bool
  | 0, i => (i, false)
  | fuel + 1, i =>
      if (tmfu i).z = 0 then (i, false)
      else if (tmfu i).z = zob then (i, true)
      else mfuLoop tmfu zob fuel (i + 1)

/-- What is returned for a handle that has been found in slot `i`; it may swap with its
predecessor. -/
def mfuHit (st : ZifCache) (i : Nat) : Option OpenZif × ZifCache :=
  if i = 0 then (st.zmfu i, st)
  else
    let st := { st with
      tmfu := Function.update st.tmfu i { st.tmfu i with cnt := ((st.tmfu i).cnt + 1) % 2 ^ 64 } }
    if (st.tmfu (i - 1)).cnt < (st.tmfu i).cnt then
      let tmfu := st.tmfu ∘ Equiv.swap (i - 1) i
      let zmfu := st.zmfu ∘ Equiv.swap (i - 1) i
      (zmfu (i - 1), { st with tmfu := tmfu, zmfu := zmfu })
    else (st.zmfu i, st)

section

variable (tz : Tzobs) (zifOpen : List Char → Option Zif)

/-- What is returned for a handle that has not been found, slot `i` being free or the last. -/
def mfuMiss (st : ZifCache) (zob i : Nat) : Option OpenZif × ZifCache :=
  -- how lucky can we get?
  if (st.tmfu i).z = zob then (st.zmfu i, st)
  else
    match (echsZone tz zob).bind zifOpen with
    | none => (none, st)
    | some zif =>
        let this := ⟨st.opened, zif⟩
        (some this, {
          tmfu := Function.update st.tmfu i ⟨zob, 1⟩
          zmfu := Function.update st.zmfu i (some this)
          opened := st.opened + 1
          -- clear the zif out
          closed := (st.zmfu i).elim st.closed fun old => old.id :: st.closed })

/-- `__tzob_zif`. -/
def tzobZif (st : ZifCache) (zob : Nat) : Option OpenZif × ZifCache :=
  let (i, found) := mfuLoop st.tmfu zob 15 0
  if found then mfuHit st i else mfuMiss tz zifOpen st zob i

/-- The cache after a sequence of requests. -/
def tzobZifs (zobs : List Nat) : ZifCache :=
  zobs.foldl (fun st zob => (tzobZif tz zifOpen st zob).2) .init

end

end Echse
