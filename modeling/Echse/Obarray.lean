/-
The table behind the interned strings: `make_obint`, `intern` and `obint_name` of
`intern.c`.

A string is pasted into the string obarray, and its slot in the beef table keeps where,
together with its length, next to the hash.  The slots are probed for like those of the zone
names, and the table is made four times as large when a stack is needed that it does not
have.  The slots of the stacks before it stay where they are.
-/
import Echse.Zones
import Mathlib.Tactic

namespace Echse

/-- A slot of the beef table; it is free if its `hx` is 0. -/
structure ObSlot where
  ob : Nat
  hx : UInt32
deriving DecidableEq, Repr

/-- What `intern.c` keeps.  The alloc size `obz` is the length of `obs`. -/
structure Obints where
  sstk : Nat → ObSlot
  zstk : Nat
  nstk : Nat
  obs : List Char
  obn : Nat

namespace Obints

/-- At the start nothing is there. -/
def init : Obints where
  sstk := fun _ => ⟨0, 0⟩
  zstk := 0
  nstk := 0
  obs := []
  obn := 0

end Obints

/-- The obarray with a string pasted at `obn`. -/
def pasteObs (obs : List Char) (obn : Nat) (str : List Char) : List Char :=
  let obz := obs.length
  let nuz := if obz = 0 then 1024 else obz * 2
  let obs := if obz ≤ obn + zonePad str.length then obs ++ List.replicate (nuz - obz) '\x00' else obs
  obs.take obn ++ str ++ obs.drop (obn + str.length)

/-- Where a string is, in words, and its length, in an `obint_t`. -/
def packObint (obn len : Nat) : Nat := ((obn >>> 2) <<< 8) % 2 ^ 64 ||| len

/-- `make_obint`, with the memory that it needs. -/
def makeObint (st : Obints) (str : List Char) : Nat × Obints :=
  (packObint st.obn str.length, { st with
    obs := pasteObs st.obs st.obn str
    obn := st.obn + zonePad str.length })

/-- The loop of `intern` over the stacks from `i` on: the slot, and how many slots there are
after it. -/
def internLoop (hx : UInt32) (p : Nat → Bool) : Nat → Nat → Nat → Nat → Option Nat × Nat
  | 0, _, _, zstk => (none, zstk)
  | fuel + 1, i, m, zstk =>
      let zstk := if zstk ≤ i then i <<< 2 else zstk
      match probe hx (fun k => (i ||| k) &&& m) p with
      | some off => (some off, zstk)
      | none => internLoop hx p fuel (i <<< 2) (m <<< 2 ||| 3) zstk

/-- The loop of `obint_name` over the stacks that there are. -/
def nameLoop (zstk : Nat) (hx : UInt32) (p : Nat → Bool) : Nat → Nat → Nat → Option Nat
  | 0, _, _ => none
  | fuel + 1, i, m =>
      if zstk ≤ i then none
      else
        match probe hx (fun k => (i ||| k) &&& m) p with
        | some off => some off
        | none => nameLoop zstk hx p fuel (i <<< 2) (m <<< 2 ||| 3)

namespace Obints

/-- The slot has the hash, or nothing. -/
def takes (st : Obints) (hx : UInt32) (off : Nat) : Bool :=
  (st.sstk off).hx == hx || (st.sstk off).hx == 0

/-- What is done once a slot is there: it has been found, or it is filled. -/
def internAt (st : Obints) (str : List Char) (hx : UInt32) (off : Nat) : Nat × Obints :=
  if (st.sstk off).hx = hx then (hx.toNat, st)
  else
    let (ob, st) := makeObint st str
    (hx.toNat, { st with sstk := Function.update st.sstk off ⟨ob, hx⟩, nstk := st.nstk + 1 })

/-- `intern`. -/
def intern (hash : List Char → UInt32) (st : Obints) (str : List Char) : Nat × Obints :=
  -- don't bother
  if str.length = 0 ∨ 256 ≤ str.length then (0, st)
  else
    let hx := hash str
    let st := if st.zstk = 0 then { st with zstk := 1024 } else st
    match probe hx (fun k => k &&& 0xff) (st.takes hx) with
    | some off => st.internAt str hx off
    | none =>
        match internLoop hx (st.takes hx) zoneStacks 256 0x3ff st.zstk with
        | (some off, zstk) => internAt { st with zstk := zstk } str hx off
        | (none, zstk) => (0, { st with zstk := zstk })

/-- `obint_name`: the memory that the returned pointer points at, and nothing for `NULL`. -/
def obintName (st : Obints) (hx : Nat) : Option (List Char) :=
  if hx = 0 then (if st.obs = [] then none else some st.obs)
  else
    let k : UInt32 := .ofNat hx
    let has (off : Nat) : Bool := (st.sstk off).hx.toNat == hx
    let off :=
      if st.zstk = 0 then none
      else
        match probe k (fun k => k &&& 0xff) has with
        | some off => some off
        | none => nameLoop st.zstk k has zoneStacks 256 0x3ff
    match off with
    | some off => some (st.obs.drop (((st.sstk off).ob >>> 8) <<< 2))
    -- it's probably one of those autogenerated uids
    | none => some (autoUid hx ++ ['\x00'])

end Obints

end Echse
