/-
Writing a recurrence rule: `send_rrul` of `evical.c` and what it calls.

The writers append to a buffer, so each of them is the text it adds.
-/
import Echse.Rrule

namespace Echse

/-! ### Numbers and instants -/

/-- `%u` and `%zu`. -/
def fmtU (n : Nat) : List Char := Nat.toDigits 10 n

/-- `%d`. -/
def fmtD (z : Int) : List Char := if z < 0 then '-' :: fmtU (-z).toNat else fmtU z.toNat

/-- `%s`, where a `NULL` is shown as such. -/
def fmtS (s : Option (List Char)) : List Char := s.getD "(null)".toList

/-- `ui32tpstr`: the last `pad` digits, unless the number is too big for it. -/
def ui32tpstr (d : Nat) : Nat → List Char
  | 0 => []
  | pad + 1 =>
      if 1000000000 < d then []
      else ui32tpstr (d / 10) pad ++ [(d % 10).digitChar]

/-- `dt_strf_ical`. -/
def dtStrfIcal (i : Instant) : List Char :=
  ui32tpstr i.y 4 ++ ui32tpstr i.m 2 ++ ui32tpstr i.d 2 ++
    if echsInstantAllDayP i then []
    else 'T' :: ui32tpstr i.H 2 ++ ui32tpstr i.M 2 ++ ui32tpstr i.S 2 ++ ['Z']

/-- `dt_strf`. -/
def dtStrf (i : Instant) : List Char :=
  ui32tpstr i.y 4 ++ '-' :: ui32tpstr i.m 2 ++ '-' :: ui32tpstr i.d 2 ++
    if echsInstantAllDayP i then []
    else 'T' :: ui32tpstr i.H 2 ++ ':' :: ui32tpstr i.M 2 ++ ':' :: ui32tpstr i.S 2 ++
      if echsInstantAllSecP i then [] else '.' :: ui32tpstr i.ms 3

/-! ### The parts of a rule -/

/-- `;key=val`. -/
def sendPart (key : String) (val : List Char) : List Char := ';' :: key.toList ++ '=' :: val

/-- `send_scale`. -/
def sendScale : Scale → List Char
  | .gregorian => []
  | .hijriIA => sendPart "SCALE" "HIJRI.IA".toList
  | .hijriIC => sendPart "SCALE" "HIJRI.IC".toList
  | .hijriIIA => sendPart "SCALE" "HIJRI.IIA".toList
  | .hijriIIC => sendPart "SCALE" "HIJRI.IIC".toList
  | .hijriIIIA => sendPart "SCALE" "HIJRI.IIIA".toList
  | .hijriIIIC => sendPart "SCALE" "HIJRI.IIIC".toList
  | .hijriIVA => sendPart "SCALE" "HIJRI.IVA".toList
  | .hijriIVC => sendPart "SCALE" "HIJRI.IVC".toList
  | .hijriUmmulqura => sendPart "SCALE" "HIJRI.UMMULQURA".toList
  | .hijriDiyanet => sendPart "SCALE" "HIJRI.DIYANET".toList

/-- `send_cd`. -/
def sendCd (cd : Cd) : List Char :=
  (if cd.cnt ≠ 0 then fmtD cd.cnt else []) ++
    (["MI", "MO", "TU", "WE", "TH", "FR", "SA", "SU"].getD cd.dow "").toList

/-- What is written of a set: `m = next(&i, bi)` unasked, then for as long as the iterator
goes on. -/
def sendVals {α : Type} (next : Nat → α × Nat) (fuel : Nat) : List α :=
  (next 0).1 :: drain next fuel (next 0).2

/-- Values with a comma in between. -/
def sendList {α : Type} (fmt : α → List Char) : List α → List Char
  | [] => []
  | v :: vs => fmt v ++ vs.flatMap fun v => ',' :: fmt v

/-- One of the sets, if it has any values. -/
def sendBy {α : Type} (key : String) (hasBits : Bool) (next : Nat → α × Nat) (fuel : Nat)
    (fmt : α → List Char) : List Char :=
  if hasBits then sendPart key (sendList fmt (sendVals next fuel)) else []

/-- The value of `SHIFT`. -/
def sendShift (sh : Int) : List Char :=
  let sign := if echsShiftNegP sh then '-' else '+'
  (if echsShiftDvalue sh ≠ 0 then fmtD (echsShiftDvalue sh) else []) ++
    if echsShiftBdayP sh then
      (if echsShiftDvalue sh ≠ 0 then [','] else []) ++ sign :: fmtU (echsShiftAbsval sh) ++
        'B' :: if echsShiftInvP sh ∧ echsShiftAbsval sh ≠ 0 then [sign] else []
    else []

/-- `FREQ=%s`. -/
def sendFreq : Freq → List Char
  | .none => "FREQ=NONE".toList
  | .yearly => "FREQ=YEARLY".toList
  | .monthly => "FREQ=MONTHLY".toList
  | .weekly => "FREQ=WEEKLY".toList
  | .daily => "FREQ=DAILY".toList
  | .hourly => "FREQ=HOURLY".toList
  | .minutely => "FREQ=MINUTELY".toList
  | .secondly => "FREQ=SECONDLY".toList

/-- The parts that `send_rrul` writes, where `ccnt` events are in the cache.  The minutes
and the seconds are passed to the iterator of the narrow sets, which cuts them off. -/
def sendRrulParts (rr : Rrulsp) (ccnt : Nat) : List Char :=
  sendFreq rr.freq ++
  (if 1 < rr.inter then sendPart "INTERVAL" (fmtU rr.inter) else []) ++
  sendScale rr.scale ++
  sendBy "BYMONTH" (bui31HasBits rr.mon) (bui31Next rr.mon) 33 fmtU ++
  sendBy "BYWEEKNO" (bi63HasBits rr.wk) (bi63Next rr.wk) 130 fmtD ++
  sendBy "BYYEARDAY" (bi383HasBits rr.doy) (bi383Next rr.doy) 769 fmtD ++
  sendBy "BYMONTHDAY" (bi31HasBits rr.dom) (bi31Next rr.dom) 66 fmtD ++
  sendBy "BYEASTER" (bi383HasBits rr.easter) (bi383Next rr.easter) 769 fmtD ++
  sendBy "BYDAY" (bi447HasBits rr.dow) (bi447Next rr.dow) 897 (fun x => sendCd (unpackCd x)) ++
  sendBy "BYHOUR" (bui31HasBits rr.H) (bui31Next rr.H) 33 fmtU ++
  sendBy "BYMINUTE" (bui31HasBits (rr.M % 2 ^ 32)) (bui31Next (rr.M % 2 ^ 32)) 33 fmtU ++
  sendBy "BYSECOND" (bui63HasBits rr.S) (bui31Next (rr.S % 2 ^ 32)) 33 fmtU ++
  sendBy "BYPOS" (bi383HasBits rr.pos) (bi383Next rr.pos) 769 fmtD ++
  (if rr.shift ≠ 0 then sendPart "SHIFT" (sendShift rr.shift) else []) ++
  (if 0 ≤ rr.count then sendPart "COUNT" (fmtU (rr.count.toNat + ccnt)) else []) ++
  (if rr.until_.u < 2 ^ 64 - 1 then sendPart "UNTIL" (dtStrfIcal rr.until_) else [])

/-- `send_rrul`. -/
def sendRrul (rr : Rrulsp) (ccnt : Nat) : List Char :=
  "RRULE:".toList ++ sendRrulParts rr ccnt ++ ['\n']

end Echse
