/-
The recurrence fields of a component: `snarf_dtlst` of `evical.c`, the cases of `snarf_fld`
that are about recurrence, and what `make_task` makes a stream of.

Memory ends with the list of its characters or with a nul in it.  What `echs_tzob` gives for
a zone's name and what the movements and states are read to is left open.
-/
import Echse.SnarfFld
import Echse.Event
import Echse.Scale

namespace Echse

/-! ### Lists of dates -/

/-- The field modifiers: the zone and the scale so far, and those after the next `;`. -/
def snarfParams (tzob : List Char → Nat) : Nat → List Char → Nat × Scale → Nat × Scale
  | fuel + 1, ';' :: eof, (z, s) =>
      let name := eof.takeWhile fun c => c ≠ ':' && c ≠ ';'
      snarfParams tzob fuel (eof.drop name.length)
        (if "TZID=".toList.isPrefixOf eof then (tzob (name.drop 5), s)
        else if "SCALE=".toList.isPrefixOf eof then (z, snarfScale (eof.drop 6))
        else (z, s))
  | _, _, zs => zs

/-- `strchr(vp, ',')`, as the distance from `vp`, or else `ep`. -/
def valueEnd (vp : List Char) (left : Nat) : Nat :=
  let v := vp.takeWhile fun c => c ≠ ',' && c ≠ '\x00'
  if (vp.drop v.length).head? = some ',' then v.length else left

/-- One value: what `dt_strp` reads up to `eod`, with zone and scale. -/
def snarfValue (zs : Nat × Scale) (vp : List Char) (eod : Nat) : Option Instant :=
  match dtStrpOn vp eod with
  | none => none
  | some (i, on) =>
      if i.u = 0 then none
      else
        -- attach zone only if there's no zone indicator
        let i :=
          if eod ≤ vp.length - on.length ∨ on.head? ≠ some 'Z' then echsInstantAttachTzob i zs.1
          else i
        some (echsInstantAttachScale i zs.2)

/-- The values of a list, of which `left` bytes are left. -/
def snarfValues (zs : Nat × Scale) : Nat → List Char → Nat → List Instant
  | 0, _, _ => []
  | fuel + 1, vp, left =>
      if left = 0 then []
      else
        let eod := valueEnd vp left
        (snarfValue zs vp eod).toList ++
          snarfValues zs fuel (vp.drop (eod + 1)) (left - (eod + 1))

/-- `snarf_dtlst`. -/
def snarfDtlst (tzob : List Char → Nat) (eof vp : List Char) (z : Nat) : List Instant :=
  snarfValues (snarfParams tzob (eof.length + 1) eof (0, .gregorian)) (z + 1) vp z

/-! ### Fields -/

/-- The slots of `struct ical_vevent_s` that the recurrence fields go to. -/
structure RecurSlots (μ : Type) where
  rrul : List Rrulsp
  xrul : List Rrulsp
  rdat : List Instant
  xdat : List Instant
  more : μ

/-- What the movements and the states are read to. -/
structure RecurEnv (μ : Type) where
  tzob : List Char → Nat
  zero : μ
  snarf : μ → IcalFld → List Char → List Char → Nat → μ

section

variable {μ : Type} (n : RecurEnv μ)

/-- The recurrence fields in `snarf_fld`. -/
def snarfRecur (r : RecurSlots μ) (fld : IcalFld) (eof vp : List Char) (z : Nat) : RecurSlots μ :=
  match fld with
  | .xdate =>
      let l := snarfDtlst n.tzob eof vp z
      if l = [] then r else { r with xdat := l }
  | .rdate =>
      let l := snarfDtlst n.tzob eof vp z
      if l = [] then r else { r with rdat := l }
  | .rrule =>
      let rr := snarfRrule (vp.take z)
      -- bang to global array
      if rr.freq = .none then r else { r with rrul := r.rrul ++ [rr] }
  | .xrule =>
      let rr := snarfRrule (vp.take z)
      if rr.freq = .none then r else { r with xrul := r.xrul ++ [rr] }
  | _ => { r with more := n.snarf r.more fld eof vp z }

/-- The fields with recurrence read like this. -/
def recurFldEnv (e : FldEnv Unit) : FldEnv (RecurSlots μ) where
  intern := e.intern
  obint := e.obint
  snarfDt := e.snarfDt
  zeroRules := ⟨[], [], [], [], n.zero⟩
  snarfRules := snarfRecur n
  toUtc := e.toUtc
  diff := e.diff

/-! ### Streams -/

/-- What `make_task` makes a stream of: nothing, the event itself or recurrences of the proto
event `e`, the rules and the dates for `__make_evrrul` and `__make_evrdat`, first those of
the event stream and then those of the exception stream. -/
inductive VeStrm where
  | none
  | vevent (e : EchsEvent)
  | recur (e : EchsEvent) (rrul : List Rrulsp) (rdat : List Instant) (xrul : List Rrulsp)
      (xdat : List Instant)

/-- The proto event; `sts` is what the states are read to. -/
def protoEvent {ρ : Type} (e : FldEnv ρ) (sts : ρ → Nat) (ve : Vevent ρ) : EchsEvent where
  from_ := echsInstantRescale ve.from_ ve.cal
  grp := echsNulInstant
  dur := veventDur e ve
  oid := if ve.t.oid = 0 then echsToidGen e ve.t.more.cmd else ve.t.oid
  sts := sts ve.more.rules

/-- The stream of `make_task`. -/
def makeVeStrm (e : FldEnv (RecurSlots μ)) (sts : RecurSlots μ → Nat) (ve : Vevent (RecurSlots μ)) :
    VeStrm :=
  let r := ve.more.rules
  if !echsNulInstantP ve.more.comp then .none
  -- oooh must be one of them execution vtodos
  else if echsNulInstantP ve.from_ then .none
  -- not an rrule but a normal vevent
  else if r.rrul = [] ∧ r.rdat = [] then .vevent (protoEvent e sts ve)
  else .recur (protoEvent e sts ve) r.rrul r.rdat r.xrul r.xdat

end

end Echse
