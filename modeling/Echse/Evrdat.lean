/-
The stream of the RDATEs of an event: `instant_soup` and `__make_evrdat` of `evical.c`.

`zif` is what `__tzob_zif` opens for a handle, the offsets of a zone, or nothing for `NULL`.
The instants are sorted in the memory of the events, at its end, and spread out from its
beginning, so that memory is kept by its words.
-/
import Echse.Event
import Echse.Refill
import Echse.Scale

namespace Echse

section

variable (zif : Nat → Option Zone)

/-- `echs_instant_tzof`, by the handle of a zone. -/
def tzobOffs (i : Instant) (z : Nat) : Int :=
  match zif z with
  | none => 0
  | some o => echsInstantTzof i o

/-- `echs_instant_utc`, by the handle of a zone. -/
def tzobUtc (i : Instant) (z : Nat) : Instant :=
  match zif z with
  | none => echsInstantDetachTzob i
  | some o => echsInstantUtc i o

/-- `echs_instant_to_utc`. -/
def echsInstantToUtc (i : Instant) : Instant :=
  if echsInstantTzob i = 0 then i else tzobUtc zif i (echsInstantTzob i)

/-- `water.intra = broth.intra`. -/
def pasteIntra (water broth : Instant) : Instant :=
  .pack water.y water.m water.d broth.H broth.M broth.S broth.ms

/-- `instant_soup`. -/
def instantSoup (broth water : Instant) (z : Nat) (eof : Int) : Instant :=
  if echsInstantAllDayP water then
    -- oh we have to paste the missing intra bits from the proto-event
    let water := pasteIntra water broth
    let fof := tzobOffs zif water z
    let soup := echsInstantDetachTzob water
    -- we need to add the discrepancy onto from
    if fof = eof then soup else echsTzobShift soup fof eof
  else if echsInstantTzob water = 0 then water
  else tzobUtc zif water (echsInstantTzob water)

/-- The instant that `__make_evrdat` makes of an RDATE, for an event on the Gregorian scale. -/
def evrdatInstant (from_ water : Instant) : Instant :=
  let z := echsInstantTzob from_
  let broth := echsInstantToUtc zif from_
  instantSoup zif broth water z (tzobOffs zif broth z)

end

/-! ### The memory of the events -/

/-- The instants in the words of `res->ev`; there is none where something else is. -/
abbrev EvMem := Nat → Option Instant

/-- The words of an event: `from`, `grp`, `dur`, `oid` and `sts`. -/
def eventWords : Nat := 5

/-- `res->ev[i] = e`. -/
def EvMem.put (mem : EvMem) (i : Nat) (e : EchsEvent) : EvMem := fun w =>
  if w = eventWords * i then some e.from_
  else if w = eventWords * i + 1 then some e.grp
  else if eventWords * i ≤ w ∧ w < eventWords * (i + 1) then none
  else mem w

/-- `rd[i]`, of `nd` instants. -/
def EvMem.rd (mem : EvMem) (nd i : Nat) : Option Instant := mem (eventWords * nd - nd + i)

/-- The memory with the sorted instants in it. -/
def EvMem.ofInstants (insts : List Instant) : EvMem := fun w =>
  if eventWords * insts.length - insts.length ≤ w then
    insts[w - (eventWords * insts.length - insts.length)]?
  else none

/-- Spread out the instants as events, from `res->ev[i]` on; nothing if what is in the place
of an instant is none. -/
def spreadEvents (cal : Scale) (nd : Nat) : Nat → Nat → EchsEvent → EvMem → Option (List EchsEvent)
  | 0, _, _, _ => some []
  | left + 1, i, e, mem => do
      let rd ← mem.rd nd i
      let e := { e with from_ := echsInstantRescale rd cal }
      let es ← spreadEvents cal nd left (i + 1) e (mem.put i e)
      some (e :: es)

/-- `__make_evrdat`: the events of the stream, or `NULL` without RDATEs. -/
def makeEvrdat (zif : Nat → Option Zone) (e : EchsEvent) (d : List Instant) :
    Option (List EchsEvent) :=
  let cal := (Scale.ofNum (echsInstantScale e.from_)).getD .gregorian
  let from_ := echsInstantRescale e.from_ .gregorian
  match d with
  | [] => none
  -- no need to sort things, just spread the one instant
  | [i] => some [{ e with from_ := echsInstantRescale (evrdatInstant zif from_ i) cal }]
  | _ =>
      let insts := echsInstantSort (d.map (evrdatInstant zif from_))
      spreadEvents cal d.length d.length 0 { e with from_ := echsInstantToUtc zif from_ }
        (.ofInstants insts)

end Echse
