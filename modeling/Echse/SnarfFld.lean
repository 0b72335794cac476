/-
Reading the fields of a component: `snarf_fld`, `snarf_pro` and `make_task` of `evical.c`.

The text of a field goes up to `vp + z`, and there may be more behind it.  What the
recurrence fields and the state are read to, and dates with a zone, is left to parameters,
and so is the hash of an object id.
-/
import Echse.Task
import Echse.Snarf

namespace Echse

/-! ### Values -/

/-- The value of a digit, if it is one in that base. -/
def digitIn (base : Nat) (c : Char) : Option Nat :=
  let v :=
    if '0' ≤ c ∧ c ≤ '9' then c.toNat - '0'.toNat
    else if 'a' ≤ c ∧ c ≤ 'z' then c.toNat - 'a'.toNat + 10
    else if 'A' ≤ c ∧ c ≤ 'Z' then c.toNat - 'A'.toNat + 10
    else 36
  if v < base then some v else none

/-- The base that `strtol` finds for itself, and the text of the number. -/
def detectBase : List Char → Nat × List Char
  | '0' :: x :: h :: s =>
      if (x = 'x' ∨ x = 'X') ∧ (digitIn 16 h).isSome then (16, h :: s) else (8, '0' :: x :: h :: s)
  | '0' :: s => (8, '0' :: s)
  | s => (10, s)

/-- `strtol(s, &on, base)` on a 64-bit `long int`; a base of 0 is found in the text.
Without digits nothing is consumed. -/
def strtolBase (base : Nat) (s : List Char) : Int × List Char :=
  let t := s.dropWhile isSpaceC
  let neg := t.head? == some '-'
  let t := if t.head? = some '-' ∨ t.head? = some '+' then t.tail else t
  let (base, t) := if base = 0 then detectBase t else (base, t)
  let ds := t.takeWhile fun c => (digitIn base c).isSome
  if ds.isEmpty then (0, s)
  else
    let v : Int := ds.foldl (fun a c => a * base + (digitIn base c).getD 0) 0
    (max (-9223372036854775808) (min 9223372036854775807 (if neg then -v else v)),
      t.drop ds.length)

/-- `on < ep`. -/
def stopsShort (vp on : List Char) (z : Nat) : Bool := decide (vp.length - on.length < z)

/-- `strndup`. -/
def strndup (vp : List Char) (z : Nat) : String :=
  .ofList ((vp.take z).takeWhile (· ≠ '\x00'))

/-- A value of `X-ECHS-MAX-SIMUL` that can be used, upped by 1. -/
def maxSimulVal (vp : List Char) (z : Nat) : Option (Fin 64) :=
  let (i, on) := strtolBase 0 vp
  if stopsShort vp on z then none
  else if i < 0 ∨ 63 ≤ i then none
  else some (Fin.ofNat 64 (i.toNat + 1))

/-- A value of `X-ECHS-UMASK` that can be used, upped by 1. -/
def umaskVal (vp : List Char) (z : Nat) : Option Nat :=
  let (i, on) := strtolBase 8 vp
  if stopsShort vp on z then none
  else if i < 0 ∨ 511 < i then none
  else some (i.toNat + 1)

/-- The value of `X-ECHS-OWNER`, `X-ECHS-SETUID` and `X-ECHS-SETGID`: a number if all of it
is one, else a name. -/
def nameOrNum (vp : List Char) (z : Nat) : NumMapStr :=
  let (i, on) := strtolBase 0 vp
  if stopsShort vp on z then .str (strndup vp z) else nummapstrBangNum (wordOfInt 64 i)

/-- Whether a mail flag is on. -/
def mailVal (vp : List Char) : Bool :=
  !(vp.head? == some '0' || vp.head? == some 'f' || vp.head? == some 'F')

/-- `snarf_mailto`. -/
def snarfMailto (line : List Char) (z : Nat) : Option String :=
  if z < 7 ∨ !(line.take z).contains ':' then some (strndup line z)
  else if "mailto:".toList.isPrefixOf line then some (strndup (line.drop 7) (z - 7))
  else none

/-- `__evical_meth`. -/
def evicalMeth (s : List Char) : Option IcalMeth :=
  [("PUBLISH", IcalMeth.publish), ("REQUEST", .request), ("REPLY", .reply), ("ADD", .add),
   ("CANCEL", .cancel), ("REFRESH", .refresh), ("COUNTER", .counter),
   ("DECLINECOUNTER", .declinecounter)].findSome? fun (k, m) =>
    if k.toList = s then some m else none

/-! ### Fields -/

/-- The slots of `struct ical_vevent_s` for the dates of a to-do, and what the recurrence
fields and the state are read to. -/
structure VeventSlots (ρ : Type) where
  due : Instant
  comp : Instant
  dur : Int
  rules : ρ
deriving DecidableEq

/-- What is left open. -/
structure FldEnv (ρ : Type) where
  /-- `intern`, the object id of a text. -/
  intern : List Char → Nat
  /-- `obint`, which does not keep the text. -/
  obint : List Char → Nat
  /-- `snarf_dt`, given `eof` and `vp`. -/
  snarfDt : List Char → List Char → Nat → Instant
  zeroRules : ρ
  snarfRules : ρ → IcalFld → List Char → List Char → Nat → ρ
  /-- `echs_instant_to_utc` and `echs_instant_diff`. -/
  toUtc : Instant → Instant
  diff : Instant → Instant → Int

abbrev Vevent (ρ : Type) := IcalVevent TaskSlots (VeventSlots ρ)

section

variable {ρ : Type} (e : FldEnv ρ)

/-- Assign to the proto task. -/
def Vevent.setT (ve : Vevent ρ) (f : FullTask → FullTask) : Vevent ρ := { ve with t := f ve.t }

/-- Assign to the slots of the proto task that are only handed on. -/
def Vevent.setMore (ve : Vevent ρ) (f : TaskSlots → TaskSlots) : Vevent ρ :=
  ve.setT fun t => { t with more := f t.more }

def Vevent.setRunAs (ve : Vevent ρ) (f : RunAs → RunAs) : Vevent ρ :=
  ve.setT fun t => { t with runAs := f t.runAs }

/-- Only the first of such a field wins. -/
def firstWins (old : Option String) (new : String) : Option String := some (old.getD new)

/-- `snarf_fld`. -/
def snarfFld (ve : Vevent ρ) (fld : IcalFld) (eof vp : List Char) (z : Nat) : Vevent ρ :=
  -- don't want empty values
  if z = 0 then ve
  else
    match fld with
    | .dtstart => { ve with from_ := e.snarfDt eof vp z }
    | .compl => { ve with more := { ve.more with comp := e.snarfDt eof vp z } }
    | .dtend => { ve with till := e.snarfDt eof vp z }
    | .due => { ve with more := { ve.more with due := e.snarfDt eof vp z } }
    | .dura =>
        let (d, on) := idiffStrp vp z
        -- keep track of it and do the maths later
        if z ≤ on then { ve with more := { ve.more with dur := d } } else ve
    | .xdate | .rdate | .rrule | .xrule | .mrule | .state =>
        { ve with more := { ve.more with rules := e.snarfRules ve.more.rules fld eof vp z } }
    | .uid => ve.setT fun t => { t with oid := e.intern (vp.take z) }
    | .summ => ve.setMore fun m => { m with cmd := firstWins m.cmd (strndup vp z) }
    | .desc => ve.setMore fun m => { m with desc := firstWins m.desc (strndup vp z) }
    | .loc => ve.setRunAs fun r => { r with wd := firstWins r.wd (strndup vp z) }
    | .ifile => ve.setMore fun m => { m with in_ := firstWins m.in_ (strndup vp z) }
    | .ofile => ve.setMore fun m => { m with out := firstWins m.out (strndup vp z) }
    | .efile => ve.setMore fun m => { m with err := firstWins m.err (strndup vp z) }
    | .mout => ve.setMore fun m => { m with mailout := mailVal vp, moutset := true }
    | .merr => ve.setMore fun m => { m with mailerr := mailVal vp, merrset := true }
    | .mrun => ve.setMore fun m => { m with mailrun := mailVal vp, mrunset := true }
    | .shell => ve.setRunAs fun r => { r with sh := firstWins r.sh (strndup vp z) }
    | .att => ve.setMore fun m => { m with att := m.att ++ (snarfMailto vp z).toList }
    | .org => ve.setMore fun m => { m with org := m.org.or (snarfMailto vp z) }
    | .maxSimul => ve.setT fun t => { t with maxSimul := (maxSimulVal vp z).getD t.maxSimul }
    | .umask => ve.setT fun t => { t with umsk := (umaskVal vp z).getD t.umsk }
    | .owner => ve.setT fun t => { t with owner := nameOrNum vp z }
    | .suid => ve.setRunAs fun r => { r with u := nameOrNum vp z }
    | .sgid => ve.setRunAs fun r => { r with g := nameOrNum vp z }
    -- we're reading a response
    | .rstat => { ve with reqStatus := (vp.headD '\x00').toNat ^^^ '0'.toNat }
    | .recurid =>
        { ve with
          from_ := dtStrp vp 0
          till := if (vp.take z).getLast? = some '+' then echsMaxInstant else echsNulInstant }
    | .begin_ | .end_ | .meth | .scale | .mfile => ve

/-- `snarf_pro`. -/
def snarfPro (ve : Vevent ρ) (fld : IcalFld) (vp : List Char) (z : Nat) : Vevent ρ :=
  -- don't want empty values
  if z = 0 then ve
  else
    match fld with
    | .meth => { ve with meth := (evicalMeth (vp.take z)).getD ve.meth }
    | .maxSimul => ve.setT fun t => { t with maxSimul := (maxSimulVal vp z).getD t.maxSimul }
    | .owner | .umask | .suid | .sgid => snarfFld e ve fld [] vp z
    | .scale => { ve with cal := snarfScale vp }
    | _ => ve

/-! ### The task -/

/-- `echs_toid_gen`. -/
def echsToidGen (cmd : Option String) : Nat :=
  match cmd with
  | none => 0
  | some s => if s.toList = [] then 0 else e.obint s.toList

/-- The duration of a component, or what its end makes up. -/
def veventDur (ve : Vevent ρ) : Int :=
  let i := e.toUtc ve.from_
  let till := e.toUtc ve.till
  if ve.more.dur = 0 ∧ echsInstantLtP i till then e.diff till i
  else if ve.more.dur < 0 then 0
  else ve.more.dur

/-- `vtod_typ` of the task. -/
def veventTyp (ve : Vevent ρ) : VtodTyp :=
  if !echsNulInstantP ve.more.comp then .compl ve.more.comp
  else if echsNulInstantP ve.from_ then
    if veventDur e ve ≠ 0 then .timeout (veventDur e ve)
    else if !echsNulInstantP ve.more.due then .due ve.more.due
    else .unk
  else .unk

/-- `make_task`, but for the stream.  An unset umask comes out as 1023, and an unset limit
as 63. -/
def makeFullTask (ve : Vevent ρ) : FullTask where
  oid := if ve.t.oid = 0 then echsToidGen e ve.t.more.cmd else ve.t.oid
  owner := ve.t.owner
  umsk := (ve.t.umsk + 1023) % 1024
  maxSimul := bakeMaxSimul ve.t.maxSimul
  runAs := ve.t.runAs
  more := { ve.t.more with vtodTyp := veventTyp e ve }

/-- The snarfers of `evical.c`. -/
def evicalSnarfers : Snarfers TaskSlots (VeventSlots ρ) FullTask where
  zeroTask := .zero
  zeroVevent := ⟨echsNulInstant, echsNulInstant, 0, e.zeroRules⟩
  snarfPro := snarfPro e
  snarfFld := snarfFld e
  makeTask := makeFullTask e

end

end Echse
