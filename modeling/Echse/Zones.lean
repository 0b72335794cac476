/-
Zone names and their handles: `echs_tzob` and `echs_zone` of `tzob.c`.

A name is pasted into a string pool and its hash into `hxa`, whose index is the handle.  The
beef table finds both by the hash.  It is read in stacks of slots, each with four times the
slots up to the last one, and has slots for as many of them as have been looked at.
-/
import Echse.Intern

namespace Echse

/-- A slot of the beef table; it is free if its `hx` is 0. -/
structure Sstk where
  of : Nat
  ob : Nat
  hx : UInt32
deriving DecidableEq, Repr

/-- What `tzob.c` keeps.  The alloc size `obz` is the length of `obs`. -/
structure Tzobs where
  sstk : Nat → Sstk
  zstk : Nat
  nstk : Nat
  obs : List Char
  obn : Nat
  hxa : List UInt32
  hxn : Nat

/-- At the start nothing is there. -/
def Tzobs.init : Tzobs where
  sstk := fun _ => ⟨0, 0, 0⟩
  zstk := 0
  nstk := 0
  obs := []
  obn := 0
  hxa := List.replicate 64 0
  hxn := 0

/-! ### Pasting -/

/-- A name and the zeros after it, up to the next multiple of 4. -/
def zonePad (len : Nat) : Nat := (len / 4 + 1) * 4

/-- `bang_zone`. -/
def bangZone (st : Tzobs) (str : List Char) : Nat × Tzobs :=
  let obz := st.obs.length
  let nuz := if obz = 0 then 1024 else obz * 2
  let obs :=
    if obz ≤ st.obn + zonePad str.length then st.obs ++ List.replicate (nuz - obz) '\x00'
    else st.obs
  (st.obn, { st with
    obs := obs.take st.obn ++ str ++ obs.drop (st.obn + str.length)
    obn := st.obn + zonePad str.length })

/-- `make_tzob`: two bits go to the day, four to the month. -/
def makeTzob (x : Nat) : Nat := ((x &&& 0b11) <<< 6) ^^^ ((x &&& 0b111100) <<< 10)

/-- `make_size`. -/
def makeSize (z : Nat) : Nat := ((z >>> 8) &&& 0b111100) ^^^ ((z >>> 6) &&& 0b11)

/-- `bang_tzob`. -/
def bangTzob (st : Tzobs) (hx : UInt32) : Nat × Tzobs :=
  -- more than 64 timezones?  we're not THAT international
  if st.hxa.length ≤ st.hxn then (0, st)
  else (makeTzob (st.hxn + 1), { st with hxa := st.hxa.set st.hxn hx, hxn := st.hxn + 1 })

/-- `retr_tzob`. -/
def retrTzob (st : Tzobs) (z : Nat) : UInt32 :=
  if st.hxa.length ≤ makeSize z then 0
  else if makeSize z = 0 then 0
  else st.hxa.getD (makeSize z - 1) 0

/-! ### Probing -/

/-- The first of the nine probes of a hash that is as it should be. -/
def probe (hx : UInt32) (off : Nat → Nat) (p : Nat → Bool) : Option Nat :=
  ((List.range 9).map fun j => off (hx.toNat >>> (3 * j))).find? p

/-- The slot has the hash, or nothing. -/
def Tzobs.takes (st : Tzobs) (hx : UInt32) (off : Nat) : Bool :=
  (st.sstk off).hx == hx || (st.sstk off).hx == 0

def Tzobs.has (st : Tzobs) (hx : UInt32) (off : Nat) : Bool := (st.sstk off).hx == hx

/-- The slots of the stacks from `i` on. -/
def tzobLoop (hx : UInt32) : Nat → Nat → Nat → Tzobs → Option Nat × Tzobs
  | 0, _, _, st => (none, st)
  | fuel + 1, i, m, st =>
      let st := if st.zstk ≤ i then { st with zstk := i <<< 2 } else st
      match probe hx (fun k => (i ||| k) &&& m) (st.takes hx) with
      | some off => (some off, st)
      | none => tzobLoop hx fuel (i <<< 2) (m <<< 2 ||| 3) st

/-- What is done once a slot is there: it has been found, or it is filled. -/
def tzobAt (st : Tzobs) (str : List Char) (hx : UInt32) (off : Nat) : Nat × Tzobs :=
  if (st.sstk off).hx = hx then ((st.sstk off).ob, st)
  else
    let (of, st) := bangZone st str
    let (ob, st) := bangTzob st hx
    (ob, { st with sstk := Function.update st.sstk off ⟨of, ob, hx⟩, nstk := st.nstk + 1 })

/-- Stacks that the loops go through; a hash finds its slot in the last one, if not before. -/
def zoneStacks : Nat := 13

section

variable (hash : List Char → UInt32)

/-- `echs_tzob`, with memory for every stack. -/
def echsTzob (st : Tzobs) (str : List Char) : Nat × Tzobs :=
  -- don't bother
  if str.length = 0 ∨ 256 ≤ str.length then (0, st)
  else
    let hx := hash str
    let st := if st.zstk = 0 then { st with zstk := 1024 } else st
    match probe hx (fun k => k &&& 0xff) (st.takes hx) with
    | some off => tzobAt st str hx off
    | none =>
        match tzobLoop hx zoneStacks 256 0x3ff st with
        | (some off, st) => tzobAt st str hx off
        | (none, st) => (0, st)

end

/-- The slot of a hash in the stacks from `i` on. -/
def zoneLoop (st : Tzobs) (hx : UInt32) : Nat → Nat → Nat → Option Nat
  | 0, _, _ => none
  | fuel + 1, i, m =>
      if st.zstk ≤ i then none
      else
        match probe hx (fun k => (i ||| k) &&& m) (st.has hx) with
        | some off => some off
        | none => zoneLoop st hx fuel (i <<< 2) (m <<< 2 ||| 3)

/-- `echs_zone`. -/
def echsZone (st : Tzobs) (z : Nat) : Option (List Char) :=
  if z = 0 then some "UTC".toList
  else
    let hx := retrTzob st z
    if hx = 0 then none
    else
      let off :=
        match probe hx (fun k => k &&& 0xff) (st.has hx) with
        | some off => some off
        | none => zoneLoop st hx zoneStacks 256 0x3ff
      off.map fun off => cStr (st.obs.drop (st.sstk off).of)

end Echse
